import LanguageService.Proofs.Reading

namespace LanguageService.Surface

def Spelling : Type := Nat → List Token → Prop

namespace Spelling

def nothing : Spelling := fun _ ts => ts = []

def word (t : Token) : Spelling := fun _ ts => ts = [t]

def maybe (t : Token) : Spelling := fun _ ts => ts = [] ∨ ts = [t]

def andThen (P Q : Spelling) : Spelling :=
  fun i ts => ∃ us vs, ts = us ++ vs ∧ P i us ∧ Q (i + us.length) vs

instance : Append Spelling := ⟨andThen⟩

def spanning (s : Span) (P : Spelling) : Spelling :=
  fun i ts => s = ⟨i, i + ts.length⟩ ∧ P i ts

def given (h : Prop) (P : Spelling) : Spelling := fun i ts => h ∧ P i ts

def optional {α : Type} (f : α → Spelling) : Option α → Spelling
  | none => nothing
  | some a => f a

def all : List Spelling → Spelling
  | [] => nothing
  | P :: Ps => P ++ all Ps

def items (Ps : List Spelling) : Spelling := all (Ps.map (· ++ maybe (.punct .semi)))

def commaThen (P : Spelling) : Spelling := word (.punct .comma) ++ P

def listed : List Spelling → Spelling
  | [] => nothing
  | P :: Ps => P ++ all (Ps.map commaThen)

def listedTrailing : List Spelling → Spelling
  | [] => nothing
  | P :: Ps => P ++ all (Ps.map commaThen) ++ maybe (.punct .comma)

def inParens (P : Spelling) : Spelling :=
  word (.punct .lparen) ++ P ++ word (.punct .rparen)

def inBrackets (P : Spelling) : Spelling :=
  word (.punct .lbracket) ++ P ++ word (.punct .rbracket)

def inBraces (P : Spelling) : Spelling :=
  word (.punct .lbrace) ++ P ++ word (.punct .rbrace)

def layers (P : Spelling) : Nat → Spelling
  | 0 => P
  | n + 1 => inParens (layers P n ++ maybe (.punct .comma))

def enclosed (P : Spelling) : Spelling := fun i ts => ∃ n, layers P n i ts

def parenthesized (P : Spelling) : Spelling := fun i ts => ∃ n, layers P (n + 1) i ts

variable {P Q R : Spelling} {i : Nat} {ts us vs : List Token}

theorem append_intro (hP : P i us) (hQ : Q (i + us.length) vs) : (P ++ Q) i (us ++ vs) :=
  ⟨us, vs, rfl, hP, hQ⟩

theorem append_mono {P' Q' : Spelling} (h : (P ++ Q) i ts) (hP : ∀ us, P i us → P' i us)
    (hQ : ∀ j vs, Q j vs → Q' j vs) : (P' ++ Q') i ts := by
  obtain ⟨us, vs, rfl, hus, hvs⟩ := h
  exact ⟨us, vs, rfl, hP us hus, hQ _ vs hvs⟩

theorem enclosed_of_parenthesized (h : parenthesized P i ts) : enclosed P i ts := by
  obtain ⟨n, h⟩ := h
  exact ⟨n + 1, h⟩

theorem parenthesized_intro (h : inParens (enclosed P ++ maybe (.punct .comma)) i ts) :
    parenthesized P i ts := by
  obtain ⟨_, _, rfl, ⟨_, _, rfl, hl, _, _, rfl, ⟨n, hn⟩, hcomma⟩, hr⟩ := h
  exact ⟨n, append_intro (append_intro hl (append_intro hn hcomma)) hr⟩

end Spelling

namespace Parser

open Spelling

variable {α β : Type}

def Consumes (p : Parser α) (Q : α → Spelling) : Prop :=
  ∀ c r a c' r', p c r = (some (a, c'), r') →
    ∃ ts, c.rest = ts ++ c'.rest ∧ c'.pos = c.pos + ts.length ∧ Q a c.pos ts

/-- The same of what is left of a parser after it has taken the tokens `us` from number `i` on. -/
def ConsumesAfter (i : Nat) (us : List Token) (p : Parser α) (Q : α → Spelling) : Prop :=
  ∀ c r a c' r', c.pos = i + us.length → p c r = (some (a, c'), r') →
    ∃ ts, c.rest = ts ++ c'.rest ∧ c'.pos = c.pos + ts.length ∧ Q a i (us ++ ts)

variable {p q : Parser α} {f : α → Parser β} {Q Q' : α → Spelling} {R : β → Spelling} {i : Nat}
  {us : List Token}

theorem Consumes.mono (h : Consumes p Q) (hQ : ∀ a i ts, Q a i ts → Q' a i ts) :
    Consumes p Q' := by
  intro c r a c' r' hp
  obtain ⟨ts, hrest, hpos, hts⟩ := h c r a c' r' hp
  exact ⟨ts, hrest, hpos, hQ a _ ts hts⟩

theorem consumes_of_after (h : ∀ i, ConsumesAfter i [] p Q) : Consumes p Q := by
  intro c r a c' r' hp
  exact h c.pos c r a c' r' rfl hp

theorem ConsumesAfter.bind (hp : Consumes p Q)
    (hf : ∀ a vs, Q a (i + us.length) vs → ConsumesAfter i (us ++ vs) (f a) R) :
    ConsumesAfter i us (p >>= f) R := by
  intro c r b c' r' hc h
  rw [bind_apply] at h
  split at h
  · next a c₁ r₁ ha =>
      obtain ⟨vs, hvs, hpos, hQ⟩ := hp c r a c₁ r₁ ha
      rw [hc] at hQ
      obtain ⟨ws, hws, hpos', hR⟩ := hf a vs hQ c₁ r₁ b c' r'
        (by rw [hpos, hc, List.length_append, Nat.add_assoc]) h
      refine ⟨vs ++ ws, by rw [hvs, hws, List.append_assoc], ?_, by rwa [← List.append_assoc]⟩
      rw [hpos', hpos, List.length_append, Nat.add_assoc]
  · cases h

theorem ConsumesAfter.pure {a : α} (h : Q a i us) : ConsumesAfter i us (Pure.pure a) Q := by
  intro c r b c' r' _ hb
  cases hb
  exact ⟨[], rfl, rfl, by simpa using h⟩

theorem ConsumesAfter.last (hp : Consumes p Q)
    (h : ∀ a vs, Q a (i + us.length) vs → Q' a i (us ++ vs)) : ConsumesAfter i us p Q' := by
  intro c r a c' r' hc ha
  obtain ⟨vs, hvs, hpos, hQ⟩ := hp c r a c' r' ha
  rw [hc] at hQ
  exact ⟨vs, hvs, hpos, h a vs hQ⟩

theorem Consumes.bind (hp : Consumes p Q)
    (hf : ∀ a i vs, Q a i vs → ConsumesAfter i vs (f a) R) : Consumes (p >>= f) R :=
  consumes_of_after fun i => .bind hp fun a vs h => hf a i vs (by simpa using h)

theorem Consumes.map {g : α → β} (hp : Consumes p Q) (hg : ∀ a i ts, Q a i ts → R (g a) i ts) :
    Consumes (do let a ← p; return g a) R :=
  hp.bind fun a i ts h => .pure (hg a i ts h)

theorem consumes_fail : Consumes (fail : Parser α) Q := by
  intro c r a c' r' h
  cases h

theorem consumes_pure {a : α} (h : ∀ i, Q a i []) : Consumes (Pure.pure a) Q :=
  consumes_of_after fun i => .pure (h i)

theorem Consumes.orElse (hp : Consumes p Q) (hq : Consumes q Q) : Consumes (orElse p q) Q := by
  intro c r a c' r' h
  rw [Parser.orElse] at h
  split at h
  · next x r₁ hx =>
      cases h
      exact hp c r a c' r' hx
  · next r₁ _ => exact hq c r₁ a c' r' h

theorem consumes_choice {ps : List (Parser α)} (h : ∀ p ∈ ps, Consumes p Q) :
    Consumes (choice ps) Q := by
  induction ps with
  | nil => exact consumes_fail
  | cons p ps ih => exact (h p (by simp)).orElse (ih fun q hq => h q (by simp [hq]))

theorem consumes_optional (hp : Consumes p Q) :
    Consumes (Parser.optional p) (Spelling.optional Q) :=
  (hp.map (g := some) fun _ _ _ h => h).orElse (consumes_pure fun _ => rfl)

theorem consumes_maybe {p : Parser Unit} {t : Token} (hp : Consumes p fun _ => word t) :
    Consumes (Parser.optional p) fun _ => maybe t := by
  refine (consumes_optional hp).mono fun a i ts h => ?_
  cases a with
  | none => exact .inl h
  | some a => exact .inr h

theorem consumes_spanned {p : Parser (Span → α)}
    (hp : Consumes p fun f i ts => Q (f ⟨i, i + ts.length⟩) i ts) : Consumes (spanned p) Q := by
  intro c r a c' r' h
  rw [spanned] at h
  split at h
  · next f c₁ r₁ hf =>
      simp only [Prod.mk.injEq, Option.some.injEq] at h
      obtain ⟨⟨rfl, rfl⟩, rfl⟩ := h
      obtain ⟨ts, hrest, hpos, hQ⟩ := hp c r f c₁ r₁ hf
      exact ⟨ts, hrest, hpos, by rwa [hpos]⟩
  · cases h

theorem consumes_token {accept : Token → Span → Option α}
    (h : ∀ t i a, accept t ⟨i, i + 1⟩ = some a → Q a i [t]) : Consumes (token accept) Q := by
  intro c r a c' r' hp
  rw [token] at hp
  split at hp
  · cases hp
  · next t rest hrest =>
      split at hp
      · next b hb =>
          cases hp
          exact ⟨[t], hrest, rfl, h t c.pos a hb⟩
      · cases hp

theorem consumes_manyUpTo (hp : Consumes p Q) (n : Nat) :
    Consumes (manyUpTo p n) fun as => all (as.map Q) := by
  induction n with
  | zero => exact consumes_pure fun _ => rfl
  | succ n ih =>
      intro c r as c' r' h
      rw [manyUpTo_succ] at h
      split at h
      · next a c₁ r₁ ha =>
          obtain ⟨us, hus, hpos, hQ⟩ := hp c r a c₁ r₁ ha
          have hrest : Consumes (do return a :: (← manyUpTo p n)) fun as i ts =>
              ∃ bs, as = a :: bs ∧ all (bs.map Q) i ts :=
            ih.map fun bs i ts hbs => ⟨bs, rfl, hbs⟩
          obtain ⟨vs, hvs, hpos', bs, rfl, hbs⟩ := hrest c₁ r₁ as c' r' h
          refine ⟨us ++ vs, by rw [hus, hvs, List.append_assoc], ?_, ?_⟩
          · rw [hpos', hpos, List.length_append, Nat.add_assoc]
          · rw [hpos] at hbs
            exact append_intro hQ hbs
      · cases h
        exact ⟨[], rfl, rfl, rfl⟩

theorem consumes_many (hp : Consumes p Q) : Consumes (many p) fun as => all (as.map Q) :=
  fun c r as c' r' h => consumes_manyUpTo hp _ c r as c' r' h

theorem consumes_many1 (hp : Consumes p Q) : Consumes (many1 p) fun as => all (as.map Q) :=
  hp.bind fun _ _ _ ha => .bind (consumes_many hp) fun _ _ has => .pure (append_intro ha has)

theorem consumes_commaThen {sep : Parser Unit} (hsep : Consumes sep fun _ => word (.punct .comma))
    (hp : Consumes p Q) : Consumes (do sep; p) fun a => commaThen (Q a) :=
  hsep.bind fun _ _ _ hc => .last hp fun _ _ ha => append_intro hc ha

theorem consumes_separatedTrailing {sep : Parser Unit}
    (hsep : Consumes sep fun _ => word (.punct .comma)) (hp : Consumes p Q) :
    Consumes (separatedTrailing p sep) fun as => listedTrailing (as.map Q) := by
  refine Consumes.orElse ?_ (consumes_pure fun _ => rfl)
  refine hp.bind fun a i us ha => .bind (consumes_many (consumes_commaThen hsep hp))
    fun as vs has => .bind (consumes_maybe hsep) fun _ ws hcomma =>
      .pure (append_intro (append_intro ha ?_) hcomma)
  rwa [List.map_map]

theorem consumes_separated1 {sep : Parser Unit}
    (hsep : Consumes sep fun _ => word (.punct .comma)) (hp : Consumes p Q) :
    Consumes (separated1 p sep) fun as => listed (as.map Q) := by
  refine hp.bind fun a i us ha => .bind (consumes_many (consumes_commaThen hsep hp))
    fun as vs has => .pure (append_intro ha ?_)
  rwa [List.map_map]

theorem consumes_between {left right : Parser Unit} {l t : Token}
    (hl : Consumes left fun _ => word l) (hr : Consumes right fun _ => word t)
    (hp : Consumes p Q) : Consumes (between left right p) fun a => word l ++ Q a ++ word t :=
  hl.bind fun _ _ _ hus => .bind hp fun _ _ hvs => .bind hr fun _ _ hws =>
    .pure (append_intro (append_intro hus hvs) hws)

end Parser

end LanguageService.Surface
