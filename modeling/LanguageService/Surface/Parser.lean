import LanguageService.Surface
import LanguageService.Token

/-!
Reading tokens with ordered choice. Beside its result, a parser carries the refusal to be
blamed if nothing fits: the first one at the furthest position, whichever alternatives were
abandoned since.
-/
namespace LanguageService.Surface

structure Cursor where
  rest : List Token
  pos : Nat
  deriving Repr

structure Refusal where
  pos : Nat
  span : Span
  deriving DecidableEq, Repr

namespace Refusal

def start : Refusal := ⟨0, ⟨0, 0⟩⟩

/-- How the parser library merges refusals is assumed: of two the one further along is kept, and of
two at one place the earlier. A token is refused behind itself. -/
def offer (old new : Refusal) : Refusal :=
  if old.pos < new.pos then new else old

theorem pos_le_offer (old new : Refusal) : old.pos ≤ (old.offer new).pos := by
  unfold offer
  split <;> omega

end Refusal

def Parser (α : Type) : Type :=
  Cursor → Refusal → Option (α × Cursor) × Refusal

namespace Parser

variable {α β : Type}

instance : Monad Parser where
  pure a := fun c r => (some (a, c), r)
  bind p f := fun c r =>
    match p c r with
    | (some (a, c'), r') => f a c' r'
    | (none, r') => (none, r')

def fail : Parser α := fun _ r => (none, r)

/-- Takes the next token if `accept` has a value for it and its span. -/
def token (accept : Token → Span → Option α) : Parser α := fun c r =>
  match c.rest with
  | [] => (none, r.offer ⟨c.pos, ⟨c.pos, c.pos⟩⟩)
  | t :: rest =>
      match accept t ⟨c.pos, c.pos + 1⟩ with
      | some a => (some (a, ⟨rest, c.pos + 1⟩), r)
      | none => (none, r.offer ⟨c.pos + 1, ⟨c.pos, c.pos + 1⟩⟩)

def finished : Parser Unit := fun c r =>
  match c.rest with
  | [] => (some ((), c), r)
  | _ :: _ => (none, r.offer ⟨c.pos, ⟨c.pos, c.pos + 1⟩⟩)

def orElse (p q : Parser α) : Parser α := fun c r =>
  match p c r with
  | (some x, r') => (some x, r')
  | (none, r') => q c r'

def choice : List (Parser α) → Parser α
  | [] => fail
  | p :: ps => orElse p (choice ps)

def optional (p : Parser α) : Parser (Option α) :=
  orElse (do return some (← p)) (pure none)

def spanned (p : Parser (Span → α)) : Parser α := fun c r =>
  match p c r with
  | (some (f, c'), r') => (some (f ⟨c.pos, c'.pos⟩, c'), r')
  | (none, r') => (none, r')

def manyUpTo (p : Parser α) : Nat → Parser (List α)
  | 0 => pure []
  | n + 1 => fun c r =>
      match p c r with
      | (some (a, c'), r') => (do return a :: (← manyUpTo p n)) c' r'
      | (none, r') => (some ([], c), r')

/-- As many as there are. Each reads at least one token, so after as many as there are tokens
the next attempt is the last. -/
def many (p : Parser α) : Parser (List α) := fun c r =>
  manyUpTo p (c.rest.length + 1) c r

def many1 (p : Parser α) : Parser (List α) := do
  return (← p) :: (← many p)

def separatedTrailing (p : Parser α) (sep : Parser Unit) : Parser (List α) :=
  orElse
    (do
      let a ← p
      let as ← many (do sep; p)
      let _ ← optional sep
      return a :: as)
    (pure [])

def separated1 (p : Parser α) (sep : Parser Unit) : Parser (List α) := do
  return (← p) :: (← many (do sep; p))

def between (left right : Parser Unit) (p : Parser α) : Parser α := do
  left
  let a ← p
  right
  return a

end Parser

end LanguageService.Surface
