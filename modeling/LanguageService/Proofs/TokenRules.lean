import LanguageService.Token.Lexer
import Mathlib.Data.List.TakeWhile
import Mathlib.Data.String.Basic

/-!
The rules of the tokens. Each sort of token has a rule, the words it matches, and what is read at a
place is the longest match there; of several rules that match it, the one of the highest priority.
Where no rule matches, an error takes one character or the part of a string that there is.
-/
namespace LanguageService.Lexer

inductive Rule where
  | comment
  | float
  | int
  | string
  | keyword (k : Keyword)
  | punct (p : Punct)
  | op
  | ident
  deriving DecidableEq

inductive Inside : List Char → Prop where
  | nil : Inside []
  | char {c : Char} {cs : List Char} : c ≠ '"' → c ≠ '\\' → c ≠ '\n' → Inside cs → Inside (c :: cs)
  | escape {c : Char} {cs : List Char} : c ≠ '\n' → Inside cs → Inside ('\\' :: c :: cs)

theorem Inside.newline_notMem {cs : List Char} (h : Inside cs) : '\n' ∉ cs := by
  induction h with
  | nil => simp
  | char _ _ hc _ ih => simp [ih, hc.symm]
  | escape hc _ ih => simp [ih, hc.symm]

namespace Rule

def Matches : Rule → List Char → Prop
  | comment, w => ∃ body, w = '/' :: '/' :: body ∧ '\n' ∉ body
  | float, w => ∃ whole part, w = whole ++ '.' :: part ∧ whole ≠ [] ∧ part ≠ [] ∧
      whole.all isDigit ∧ part.all isDigit
  | int, w => w ≠ [] ∧ w.all isDigit
  | string, w => ∃ body, w = '"' :: body ++ ['"'] ∧ Inside body
  | keyword k, w => w = k.spelling.toList
  | punct p, w => w = p.spelling.toList
  | op, w => w ≠ [] ∧ w.all isOperatorChar
  | ident, w => ∃ c cs, w = c :: cs ∧ isWordStart c ∧ cs.all isWordPart

/-- A literal counts two for each character and a pattern what its shortest match must count,
unless a rule is given a priority of its own. -/
def priority : Rule → Nat
  | comment => 10
  | float => 6
  | int => 2
  | string => 4
  | keyword .kwUnderscore => 3
  | keyword k => 2 * k.spelling.length
  | punct .arrow => 10
  | punct .assign => 10
  | punct _ => 2
  | op => 1
  | ident => 2

def token : Rule → List Char → Token
  | comment, w => .comment (String.ofList w)
  | float, w => .float (String.ofList w)
  | int, w => .int (String.ofList w)
  | string, w => .string (String.ofList w)
  | keyword k, _ => .keyword k
  | punct p, _ => .punct p
  | op, w => .op (String.ofList w)
  | ident, w => .ident (String.ofList w)

end Rule

structure Chosen (text : List Char) (r : Rule) (w : List Char) : Prop where
  isPrefix : w <+: text
  isMatch : r.Matches w
  best : ∀ s v, s.Matches v → v <+: text →
    v.length < w.length ∨ (v = w ∧ (s = r ∨ s.priority < r.priority))

def Unmatched (text : List Char) : Prop := ∀ (r : Rule) (v : List Char), r.Matches v → ¬ v <+: text

inductive Picks (text : List Char) : Token → List Char → Prop where
  | rule {r : Rule} {w : List Char} : Chosen text r w → Picks text (r.token w) w
  | character {c : Char} : isBlank c = false → [c] <+: text → Unmatched text →
      Picks text (.error (String.ofList [c])) [c]
  | unterminated {body : List Char} : '"' :: body <+: text → Inside body →
      (∀ b, Inside b → '"' :: b <+: text → b.length ≤ body.length) → Unmatched text →
      Picks text (.error (String.ofList ('"' :: body))) ('"' :: body)

inductive Head where
  | operator
  | digit
  | quote
  | letter
  | mark (p : Punct)
  | unknown
  deriving DecidableEq

def headOf (c : Char) : Head :=
  if isOperatorChar c then .operator
  else if isDigit c then .digit
  else if c = '"' then .quote
  else if isWordStart c then .letter
  else match Punct.ofChar c with
    | some p => .mark p
    | none => .unknown

section Heads

variable {c : Char}

theorem headOf_of_isOperatorChar (h : isOperatorChar c) : headOf c = .operator := if_pos h

theorem isDigit_iff : isDigit c = true ↔ 48 ≤ c.toNat ∧ c.toNat ≤ 57 := by
  simp [isDigit, Char.le_def, UInt32.le_iff_toNat_le]

theorem isWordStart_iff : isWordStart c = true ↔
    (65 ≤ c.toNat ∧ c.toNat ≤ 90) ∨ (97 ≤ c.toNat ∧ c.toNat ≤ 122) ∨ c = '_' := by
  simp [isWordStart, Char.le_def, UInt32.le_iff_toNat_le, or_assoc]

theorem not_word_of_isOperatorChar (h : isOperatorChar c) :
    isDigit c = false ∧ isWordStart c = false := by
  have hall : (['-', '+', '*', '/', '%', '<', '>', '=', '!', '&', '|', '^', '~'].all fun d =>
      !isDigit d && !isWordStart d) = true := by decide
  simpa using List.all_eq_true.mp hall c (by simpa [isOperatorChar] using h)

theorem headOf_of_isDigit (h : isDigit c) : headOf c = .digit := by
  have hop : ¬ isOperatorChar c := by
    intro hop
    simp [(not_word_of_isOperatorChar hop).1] at h
  rw [headOf, if_neg hop, if_pos h]

theorem headOf_of_isWordStart (h : isWordStart c) : headOf c = .letter := by
  have hop : ¬ isOperatorChar c := by
    intro hop
    simp [(not_word_of_isOperatorChar hop).2] at h
  have hdigit : ¬ isDigit c := by
    intro hdigit
    have hrange := isDigit_iff.mp hdigit
    rcases isWordStart_iff.mp h with hw | hw | rfl
    · omega
    · omega
    · exact absurd hdigit (by decide)
  have hquote : c ≠ '"' := by
    rintro rfl
    exact absurd h (by decide)
  rw [headOf, if_neg hop, if_neg hdigit, if_neg hquote, if_pos h]

theorem headOf_of_ofChar {p : Punct} (h : Punct.ofChar c = some p) : headOf c = .mark p := by
  unfold Punct.ofChar at h
  split at h <;> cases h <;> decide

end Heads

namespace Rule

variable {r : Rule} {c : Char} {v : List Char}

def head : Rule → Head
  | comment => .operator
  | float => .digit
  | int => .digit
  | string => .quote
  | keyword _ => .letter
  | punct .arrow => .operator
  | punct .assign => .operator
  | punct p => .mark p
  | op => .operator
  | ident => .letter

theorem ident_matches (k : Keyword) : ident.Matches k.spelling.toList := by
  cases k <;> exact ⟨_, _, rfl, by decide, by decide⟩

theorem spelling_of_ofChar {p : Punct} (h : Punct.ofChar c = some p) :
    p.spelling.toList = [c] := by
  unfold Punct.ofChar at h
  split at h <;> cases h <;> rfl

theorem Matches.ne_nil (h : r.Matches v) : v ≠ [] := by
  rintro rfl
  cases r with
  | keyword k => cases k <;> simp [Matches, Keyword.spelling] at h
  | punct p => cases p <;> simp [Matches, Punct.spelling] at h
  | _ => simp [Matches] at h

theorem Matches.headOf_eq (h : r.Matches (c :: v)) : headOf c = r.head := by
  cases r with
  | comment =>
      obtain ⟨body, hw, -⟩ := h
      cases hw
      decide
  | float =>
      obtain ⟨whole, part, hw, hne, -, hdigits, -⟩ := h
      obtain ⟨d, ds, rfl⟩ := List.exists_cons_of_ne_nil hne
      cases hw
      exact headOf_of_isDigit (List.all_eq_true.mp hdigits _ List.mem_cons_self)
  | int => exact headOf_of_isDigit (List.all_eq_true.mp h.2 _ List.mem_cons_self)
  | string =>
      obtain ⟨body, hw, -⟩ := h
      cases hw
      decide
  | keyword k =>
      obtain ⟨d, ds, hw, hd, -⟩ := ident_matches k
      cases h.trans hw
      exact headOf_of_isWordStart hd
  | punct p =>
      cases p <;> obtain ⟨rfl, rfl⟩ : c = _ ∧ v = _ := by simpa [Matches, Punct.spelling] using h
      all_goals decide
  | op => exact headOf_of_isOperatorChar (List.all_eq_true.mp h.2 _ List.mem_cons_self)
  | ident =>
      obtain ⟨d, ds, hw, hd, -⟩ := h
      cases hw
      exact headOf_of_isWordStart hd

theorem of_head_operator (h : r.head = .operator) :
    r = comment ∨ r = op ∨ r = punct .arrow ∨ r = punct .assign := by
  cases r with
  | punct p => cases p <;> simp_all [head]
  | _ => simp_all [head]

theorem of_head_digit (h : r.head = .digit) : r = int ∨ r = float := by
  cases r with
  | punct p => cases p <;> simp_all [head]
  | _ => simp_all [head]

theorem of_head_quote (h : r.head = .quote) : r = string := by
  cases r with
  | punct p => cases p <;> simp_all [head]
  | _ => simp_all [head]

theorem of_head_letter (h : r.head = .letter) : r = ident ∨ ∃ k, r = keyword k := by
  cases r with
  | punct p => cases p <;> simp_all [head]
  | _ => simp_all [head]

theorem of_head_mark {p : Punct} (h : r.head = .mark p) : r = punct p := by
  cases r with
  | punct p => cases p <;> simp_all [head]
  | _ => simp_all [head]

theorem head_ne_unknown : r.head ≠ .unknown := by
  cases r with
  | punct p => cases p <;> simp [head]
  | _ => simp [head]

theorem Matches.newline_notMem (h : r.Matches v) : '\n' ∉ v := by
  have hall : ∀ {p : Char → Bool} {w : List Char}, w.all p → p '\n' = false → '\n' ∉ w := by
    intro p w hw hp hmem
    simpa [hp] using List.all_eq_true.mp hw _ hmem
  cases r with
  | comment =>
      obtain ⟨body, rfl, hbody⟩ := h
      simpa using hbody
  | float =>
      obtain ⟨whole, part, rfl, -, -, hwhole, hpart⟩ := h
      simp [hall hwhole (by decide), hall hpart (by decide)]
  | int => exact hall h.2 (by decide)
  | string =>
      obtain ⟨body, rfl, hbody⟩ := h
      simp [hbody.newline_notMem]
  | keyword k =>
      obtain ⟨d, ds, hw, hd, hds⟩ := ident_matches k
      exact hall (p := isWordPart) (h ▸ hw ▸ by simp [hds, isWordPart, hd]) (by decide)
  | punct p =>
      cases h
      cases p <;> decide
  | op => exact hall h.2 (by decide)
  | ident =>
      obtain ⟨d, ds, rfl, hd, hds⟩ := h
      exact hall (p := isWordPart) (by simp [hds, isWordPart, hd]) (by decide)

theorem Matches.display (h : r.Matches v) : (r.token v).display = String.ofList v := by
  cases r with
  | keyword k => exact (String.ofList_toList.symm.trans (congrArg _ h.symm))
  | punct p => exact (String.ofList_toList.symm.trans (congrArg _ h.symm))
  | _ => rfl

end Rule

section Choice

variable {r : Rule} {c : Char} {cs w : List Char}

theorem isPrefix_takeWhile {p : Char → Bool} {v : List Char} (h : v <+: cs) (hv : v.all p) :
    v <+: cs.takeWhile p := by
  obtain ⟨rest, rfl⟩ := h
  rw [List.takeWhile_append_of_pos (List.all_eq_true.mp hv)]
  exact List.prefix_append _ _

theorem Chosen.of_longest (hw : w <+: c :: cs) (hr : r.Matches w)
    (hlongest : ∀ (s : Rule) v, s.Matches (c :: v) → v <+: cs → c :: v <+: w)
    (hfirst : ∀ s : Rule, s.Matches w → s = r ∨ s.priority < r.priority) :
    Chosen (c :: cs) r w := by
  refine ⟨hw, hr, fun s v hs hv => ?_⟩
  obtain ⟨d, v, rfl⟩ := List.exists_cons_of_ne_nil hs.ne_nil
  obtain ⟨rfl, hrest⟩ := List.cons_prefix_cons.mp hv
  have hprefix := hlongest s v hs hrest
  rcases Nat.lt_or_eq_of_le hprefix.length_le with hlt | heq
  · exact .inl hlt
  · have hvw := hprefix.eq_of_length heq
    exact .inr ⟨hvw, hfirst s (hvw ▸ hs)⟩

theorem comment_chosen (cs : List Char) :
    Chosen ('/' :: '/' :: cs) .comment ('/' :: '/' :: cs.takeWhile (· ≠ '\n')) := by
  refine .of_longest ?_ ?_ ?_ ?_
  · simpa using List.takeWhile_prefix _
  · refine ⟨_, rfl, fun hmem => ?_⟩
    simpa using List.mem_takeWhile_imp hmem
  · intro s v hs hv
    have hline : v.all (· ≠ '\n') := by
      rw [List.all_eq_true]
      intro d hd
      have hne : d ≠ '\n' := by
        rintro rfl
        exact hs.newline_notMem (List.mem_cons_of_mem _ hd)
      simpa using hne
    simpa using isPrefix_takeWhile hv hline
  · intro s hs
    rcases Rule.of_head_operator hs.headOf_eq.symm with rfl | rfl | rfl | rfl
    · exact .inl rfl
    · exact .inr (by decide)
    · simp [Rule.Matches, Punct.spelling] at hs
    · simp [Rule.Matches, Punct.spelling] at hs

/-- The rule of an operator, which is a mark of its own where it is one of the two that are. -/
def operatorRule (word : List Char) : Rule :=
  if word = ['-', '>'] then .punct .arrow else if word = ['='] then .punct .assign else .op

theorem operatorRule_token (w : List Char) :
    (operatorRule w).token w = operatorToken (String.ofList w) := by
  have harrow : String.ofList w = "->" ↔ w = ['-', '>'] := String.ofList_eq
  have hassign : String.ofList w = "=" ↔ w = ['='] := String.ofList_eq
  simp only [operatorRule, operatorToken, harrow, hassign]
  split
  · rfl
  · split <;> rfl

theorem operator_chosen (hc : isOperatorChar c) (hcomment : ¬ (c = '/' ∧ cs.head? = some '/')) :
    Chosen (c :: cs) (operatorRule (c :: cs.takeWhile isOperatorChar))
      (c :: cs.takeWhile isOperatorChar) := by
  have hoperator {s : Rule} {v : List Char} (hs : s.Matches (c :: v)) (hv : v <+: cs) :
      s = .op ∨ s = .punct .arrow ∨ s = .punct .assign := by
    have hhead := hs.headOf_eq
    rw [headOf_of_isOperatorChar hc] at hhead
    refine (Rule.of_head_operator hhead.symm).resolve_left ?_
    rintro rfl
    obtain ⟨body, hbody, -⟩ := hs
    cases hbody
    exact hcomment ⟨rfl, by obtain ⟨rest, rfl⟩ := hv; rfl⟩
  have hword : (c :: cs.takeWhile isOperatorChar).all isOperatorChar := by
    simp [hc]
  refine .of_longest ?_ ?_ ?_ ?_
  · simpa using List.takeWhile_prefix _
  · unfold operatorRule
    split
    · next h => exact h
    · split
      · next h => exact h
      · exact ⟨by simp, hword⟩
  · intro s v hs hv
    have hall : v.all isOperatorChar := by
      rcases hoperator hs hv with rfl | rfl | rfl
      · simpa [hc] using hs.2
      · cases hs
        decide
      · cases hs
        decide
    simpa using isPrefix_takeWhile hv hall
  · intro s hs
    unfold operatorRule
    rcases hoperator hs (List.takeWhile_prefix _) with rfl | rfl | rfl
    · split
      · exact .inr (by decide)
      · split
        · exact .inr (by decide)
        · exact .inl rfl
    · exact .inl (if_pos hs).symm
    · have hne : c :: cs.takeWhile isOperatorChar ≠ ['-', '>'] := by
        rw [show c :: cs.takeWhile isOperatorChar = ['='] from hs]
        decide
      exact .inl ((if_neg hne).trans (if_pos hs)).symm

theorem whole_eq {whole part : List Char} (hwhole : whole.all isDigit)
    (h : whole ++ '.' :: part <+: cs) :
    cs.takeWhile isDigit = whole ∧ '.' :: part <+: cs.dropWhile isDigit := by
  obtain ⟨after, rfl⟩ := h
  have hdigits := List.all_eq_true.mp hwhole
  rw [List.append_assoc, List.takeWhile_append_of_pos hdigits, List.dropWhile_append_of_pos hdigits,
    List.cons_append, List.takeWhile_cons_of_neg (by decide), List.dropWhile_cons_of_neg (by decide)]
  exact ⟨List.append_nil _, ⟨after, rfl⟩⟩

section Numbers

variable (hc : isDigit c)

include hc

theorem rule_of_digit {v : List Char} (hr : r.Matches (c :: v)) : r = .int ∨ r = .float := by
  have hhead := hr.headOf_eq
  rw [headOf_of_isDigit hc] at hhead
  exact Rule.of_head_digit hhead.symm

theorem int_isPrefix {v : List Char} (hv : Rule.int.Matches (c :: v)) (hcs : v <+: cs) :
    c :: v <+: c :: cs.takeWhile isDigit := by
  have hall := hv.2
  simpa using isPrefix_takeWhile hcs (by simpa [hc] using hall)

theorem float_eq {v : List Char} (hv : Rule.float.Matches (c :: v)) (hcs : v <+: cs) :
    ∃ d part rest, c :: v = c :: cs.takeWhile isDigit ++ '.' :: d :: part ∧ isDigit d ∧
      part.all isDigit ∧ cs.dropWhile isDigit = '.' :: d :: rest ∧ part <+: rest := by
  obtain ⟨whole, part, hw, hne, hpart, hdigits, hall⟩ := hv
  obtain ⟨d, whole, rfl⟩ := List.exists_cons_of_ne_nil hne
  obtain ⟨e, part, rfl⟩ := List.exists_cons_of_ne_nil hpart
  cases hw
  obtain ⟨hwhole, after, hafter⟩ := whole_eq (by simpa [hc] using hdigits) hcs
  simp only [List.all_cons, Bool.and_eq_true] at hall
  exact ⟨e, part, part ++ after, by rw [hwhole]; rfl, hall.1, hall.2, hafter.symm,
    List.prefix_append _ _⟩

theorem int_chosen (hpoint : ∀ d rest, cs.dropWhile isDigit = '.' :: d :: rest → ¬ isDigit d) :
    Chosen (c :: cs) .int (c :: cs.takeWhile isDigit) := by
  have hint {s : Rule} {v : List Char} (hs : s.Matches (c :: v)) (hv : v <+: cs) : s = .int := by
    refine (rule_of_digit hc hs).resolve_right ?_
    rintro rfl
    obtain ⟨d, part, rest, -, hd, -, hrest, -⟩ := float_eq hc hs hv
    exact hpoint d rest hrest hd
  refine .of_longest ?_ ⟨by simp, ?_⟩ ?_ ?_
  · simpa using List.takeWhile_prefix _
  · simp [hc]
  · intro s v hs hv
    cases hint hs hv
    exact int_isPrefix hc hs hv
  · exact fun s hs => .inl (hint hs (List.takeWhile_prefix _))

theorem float_chosen {d : Char} {rest : List Char} (hd : isDigit d)
    (hrest : cs.dropWhile isDigit = '.' :: d :: rest) :
    Chosen (c :: cs) .float
      (c :: cs.takeWhile isDigit ++ '.' :: d :: rest.takeWhile isDigit) := by
  have hcs : cs.takeWhile isDigit ++ '.' :: d :: rest = cs := by
    rw [← hrest, List.takeWhile_append_dropWhile]
  refine .of_longest ?_ ⟨_, _, rfl, by simp, by simp, ?_, ?_⟩ ?_ ?_
  · obtain ⟨after, hafter⟩ := List.takeWhile_prefix (l := rest) isDigit
    exact ⟨after, by simp [hafter, hcs]⟩
  · simp [hc]
  · simp [hd]
  · intro s v hs hv
    rcases rule_of_digit hc hs with rfl | rfl
    · exact (int_isPrefix hc hs hv).trans (List.prefix_append _ _)
    · obtain ⟨e, part, rest', hw, -, hpart, hrest', hprefix⟩ := float_eq hc hs hv
      cases hrest.symm.trans hrest'
      rw [hw, List.prefix_append_right_inj, List.prefix_cons_inj, List.prefix_cons_inj]
      exact isPrefix_takeWhile hprefix hpart
  · intro s hs
    rcases rule_of_digit hc hs with rfl | rfl
    · exact absurd hs.2 (by simp [show isDigit '.' = false by decide])
    · exact .inl rfl

theorem number_chosen (cs : List Char) :
    ∃ r : Rule, (number c cs).1 = r.token (number c cs).2 ∧
      Chosen (c :: cs) r (number c cs).2 := by
  rw [number]
  split
  · next d rest hrest =>
      split
      · next hd => exact ⟨.float, rfl, float_chosen hc hd hrest⟩
      · next hd =>
          refine ⟨.int, rfl, int_chosen hc fun e rest' hrest' => ?_⟩
          cases hrest.symm.trans hrest'
          exact hd
  · next hno => exact ⟨.int, rfl, int_chosen hc fun d rest hrest => absurd hrest (hno d rest)⟩

end Numbers

section Strings

theorem stringBody_isPrefix (cs : List Char) : stringBody cs <+: cs := by
  fun_induction stringBody cs with
  | case1 => exact List.nil_prefix
  | case2 => exact List.nil_prefix
  | case3 => exact List.nil_prefix
  | case4 c cs _ ih => simpa using ih
  | case5 => exact List.nil_prefix
  | case6 c cs _ _ _ ih => simpa using ih

theorem inside_stringBody (cs : List Char) : Inside (stringBody cs) := by
  fun_induction stringBody cs with
  | case1 => exact .nil
  | case2 => exact .nil
  | case3 => exact .nil
  | case4 c cs hc ih => exact .escape hc ih
  | case5 => exact .nil
  | case6 c cs _ _ hc ih =>
      simp only [not_or] at hc
      exact .char hc.1 hc.2.1 hc.2.2 ih

theorem Inside.stringBody_append {b : List Char} (h : Inside b) (rest : List Char) :
    stringBody (b ++ rest) = b ++ stringBody rest := by
  induction h with
  | nil => rfl
  | @char c cs hquote hescape hline _ ih =>
      rw [List.cons_append, stringBody.eq_4 _ _ (by simp_all) (by simp_all)]
      simpa [hquote, hescape, hline] using ih
  | @escape c cs hline _ ih =>
      rw [List.cons_append, List.cons_append, stringBody.eq_3, if_neg hline]
      simpa using ih

theorem stringBody_eq_of_matches {v : List Char} (hr : r.Matches ('"' :: v)) (hv : v <+: cs) :
    r = .string ∧ v = stringBody cs ++ ['"'] := by
  have hhead := hr.headOf_eq
  rw [show headOf '"' = .quote by decide] at hhead
  cases Rule.of_head_quote hhead.symm
  obtain ⟨body, hbody, hinside⟩ := hr
  obtain rfl : v = body ++ ['"'] := (List.cons.inj hbody).2
  obtain ⟨rest, rfl⟩ := hv
  have hend : stringBody ('"' :: rest) = [] := by
    rw [stringBody.eq_4 _ _ (by simp) (by simp), if_pos (.inl rfl)]
  refine ⟨rfl, ?_⟩
  rw [List.append_assoc, hinside.stringBody_append, List.singleton_append, hend, List.append_nil]

theorem stringLiteral_picks : Picks ('"' :: cs) (stringLiteral cs).1 (stringLiteral cs).2 := by
  have hbody := stringBody_isPrefix cs
  rw [stringLiteral]
  split
  · next rest hrest =>
      have hcs : stringBody cs ++ ['"'] <+: cs := by
        refine ⟨rest, ?_⟩
        rw [List.append_assoc, List.singleton_append, ← hrest, List.prefix_iff_eq_append.mp hbody]
      refine .rule (r := .string) (.of_longest ?_ ⟨_, rfl, inside_stringBody cs⟩ ?_ ?_)
      · exact List.cons_prefix_cons.mpr ⟨rfl, hcs⟩
      · intro s v hs hv
        simp [(stringBody_eq_of_matches hs hv).2]
      · exact fun s hs => .inl (stringBody_eq_of_matches hs hcs).1
  · next hno =>
      refine .unterminated (by simpa using hbody) (inside_stringBody cs) ?_ ?_
      · intro b hb hprefix
        obtain ⟨rest, rfl⟩ := (List.cons_prefix_cons.mp hprefix).2
        simp [hb.stringBody_append]
      · intro s v hs hv
        obtain ⟨d, v, rfl⟩ := List.exists_cons_of_ne_nil hs.ne_nil
        obtain ⟨rfl, hrest⟩ := List.cons_prefix_cons.mp hv
        obtain ⟨-, hbody⟩ := stringBody_eq_of_matches hs hrest
        obtain ⟨rest, hcs⟩ := hrest
        have hdrop := congrArg (List.drop (stringBody cs).length) hcs
        exact hno rest (by simpa [hbody] using hdrop.symm)

end Strings

section Words

def wordRule (word : List Char) : Rule :=
  match Keyword.ofSpelling (String.ofList word) with
  | some k => .keyword k
  | none => .ident

theorem wordRule_token (w : List Char) :
    (wordRule w).token w = wordToken (String.ofList w) := by
  rw [wordRule, wordToken]
  cases Keyword.ofSpelling (String.ofList w) <;> rfl

theorem priority_keyword (k : Keyword) : Rule.ident.priority < (Rule.keyword k).priority := by
  cases k <;> decide

theorem ofSpelling_of_matches {k : Keyword} (h : (Rule.keyword k).Matches w) :
    Keyword.ofSpelling (String.ofList w) = some k := by
  rw [show w = k.spelling.toList from h, String.ofList_toList, Keyword.ofSpelling_spelling]

theorem matches_of_ofSpelling {k : Keyword} (h : Keyword.ofSpelling (String.ofList w) = some k) :
    (Rule.keyword k).Matches w := by
  have hfound := List.find?_some h
  exact String.ofList_eq.mp (eq_of_beq hfound).symm

theorem word_chosen (hc : isWordStart c) :
    Chosen (c :: cs) (wordRule (c :: cs.takeWhile isWordPart)) (c :: cs.takeWhile isWordPart) := by
  have hword {s : Rule} {v : List Char} (hs : s.Matches (c :: v)) :
      s = .ident ∨ ∃ k, s = .keyword k := by
    have hhead := hs.headOf_eq
    rw [headOf_of_isWordStart hc] at hhead
    exact Rule.of_head_letter hhead.symm
  have hident : Rule.ident.Matches (c :: cs.takeWhile isWordPart) := ⟨_, _, rfl, hc, by simp⟩
  refine .of_longest ?_ ?_ ?_ ?_
  · simpa using List.takeWhile_prefix _
  · unfold wordRule
    split
    · next k hk => exact matches_of_ofSpelling hk
    · exact hident
  · intro s v hs hv
    obtain ⟨d, ds, hw, -, hall⟩ : Rule.ident.Matches (c :: v) := by
      rcases hword hs with rfl | ⟨k, rfl⟩
      · exact hs
      · rw [show c :: v = k.spelling.toList from hs]
        exact Rule.ident_matches k
    cases hw
    simpa using isPrefix_takeWhile hv hall
  · intro s hs
    unfold wordRule
    rcases hword hs with rfl | ⟨k, rfl⟩
    · split
      · next k _ => exact .inr (priority_keyword k)
      · exact .inl rfl
    · rw [ofSpelling_of_matches hs]
      exact .inl rfl

end Words

theorem mark_chosen {p : Punct} (hc : Punct.ofChar c = some p) :
    Chosen (c :: cs) (.punct p) [c] := by
  have hmark {s : Rule} {v : List Char} (hs : s.Matches (c :: v)) : s = .punct p := by
    have hhead := hs.headOf_eq
    rw [headOf_of_ofChar hc] at hhead
    exact Rule.of_head_mark hhead.symm
  have hspelling := Rule.spelling_of_ofChar hc
  refine .of_longest (by simp) hspelling.symm ?_ ?_
  · intro s v hs _
    cases hmark hs
    exact (hs.trans hspelling) ▸ List.prefix_rfl
  · exact fun s hs => .inl (hmark hs)

theorem unmatched_of_unknown (hc : headOf c = .unknown) : Unmatched (c :: cs) := by
  intro s v hs hv
  obtain ⟨d, v, rfl⟩ := List.exists_cons_of_ne_nil hs.ne_nil
  obtain ⟨rfl, -⟩ := List.cons_prefix_cons.mp hv
  exact Rule.head_ne_unknown (hs.headOf_eq.symm.trans hc)

theorem first_picks (cs : List Char) (hc : isBlank c = false) :
    Picks (c :: cs) (first c cs).1 (first c cs).2 := by
  fun_cases first c cs with
  | case1 hcomment =>
      obtain ⟨rfl, hslash⟩ := hcomment
      obtain ⟨rest, rfl⟩ := List.head?_eq_some_iff.mp hslash
      exact Picks.rule (comment_chosen rest)
  | case2 hcomment hop =>
      rw [← operatorRule_token]
      exact .rule (operator_chosen hop hcomment)
  | case3 hcomment hop hdigit =>
      obtain ⟨r, htoken, hchosen⟩ := number_chosen hdigit cs
      rw [htoken]
      exact .rule hchosen
  | case4 hcomment hop hdigit hquote =>
      subst hquote
      exact stringLiteral_picks
  | case5 hcomment hop hdigit hquote hword =>
      rw [← wordRule_token]
      exact .rule (word_chosen hword)
  | case6 hcomment hop hdigit hquote hword p hp =>
      exact .rule (mark_chosen hp)
  | case7 hcomment hop hdigit hquote hword hnone =>
      refine .character hc (by simp) (unmatched_of_unknown ?_)
      simp [headOf, hop, hdigit, hquote, hword, hnone]

end Choice

namespace Picks

variable {text w after : List Char} {t : Token}

theorem isPrefix (h : Picks text t w) : w <+: text := by
  cases h with
  | rule hr => exact hr.isPrefix
  | character _ hc _ => exact hc
  | unterminated hb _ _ _ => exact hb

theorem ne_nil (h : Picks text t w) : w ≠ [] := by
  cases h with
  | rule hr => exact hr.isMatch.ne_nil
  | character _ _ _ => simp
  | unterminated _ _ _ _ => simp

theorem newline_notMem (h : Picks text t w) : '\n' ∉ w := by
  cases h with
  | rule hr => exact hr.isMatch.newline_notMem
  | @character c hc _ _ =>
      rw [List.mem_singleton]
      rintro rfl
      exact absurd hc (by decide)
  | unterminated _ hb _ _ => simpa using hb.newline_notMem

theorem display (h : Picks text t w) (ht : t.isError = false) : t.display = String.ofList w := by
  cases h with
  | rule hr => exact hr.isMatch.display
  | character _ _ _ => cases ht
  | unterminated _ _ _ _ => cases ht

theorem comment (h : Picks (w ++ after) t w) (ht : t.isComment) :
    ['/', '/'] <+: w ∧ (after = [] ∨ after.head? = some '\n') := by
  cases h with
  | character _ _ _ => cases ht
  | unterminated _ _ _ _ => cases ht
  | @rule r w hr =>
      obtain rfl : r = .comment := by cases r <;> first | rfl | cases ht
      obtain ⟨body, rfl, hbody⟩ := hr.isMatch
      refine ⟨by simp, ?_⟩
      cases after with
      | nil => exact .inl rfl
      | cons c after =>
          refine .inr (congrArg some ?_)
          by_contra hc
          have hlonger := hr.best .comment ('/' :: '/' :: (body ++ [c]))
            ⟨_, rfl, by simp [hbody, Ne.symm hc]⟩ (by simp)
          simp at hlonger

theorem error (h : Picks text t w) (ht : t.isError) :
    Unmatched text ∧ ((∃ c, w = [c]) ∨
      ∃ body, w = '"' :: body ∧ Inside body ∧
        ∀ b, Inside b → '"' :: b <+: text → b.length ≤ body.length) := by
  cases h with
  | @rule r w hr => cases r <;> cases ht
  | @character c _ _ hno => exact ⟨hno, .inl ⟨c, rfl⟩⟩
  | @unterminated body _ hb hlongest hno => exact ⟨hno, .inr ⟨body, rfl, hb, hlongest⟩⟩

theorem ofSpelling_eq_none {r : Rule} (h : Chosen text r w)
    (hr : ∀ k, r ≠ .keyword k ∧ r.priority < (Rule.keyword k).priority) :
    Keyword.ofSpelling (String.ofList w) = none := by
  cases hk : Keyword.ofSpelling (String.ofList w) with
  | none => rfl
  | some k =>
      obtain ⟨hne, hlt⟩ := hr k
      rcases h.best _ _ (matches_of_ofSpelling hk) h.isPrefix with hlength | ⟨-, heq | hgt⟩
      · exact absurd hlength (Nat.lt_irrefl _)
      · exact absurd heq.symm hne
      · exact absurd hgt (Nat.lt_asymm hlt)

theorem ident_not_keyword {x : String} (h : Picks text (.ident x) w) :
    Keyword.ofSpelling x = none := by
  generalize ht : Token.ident x = t at h
  cases h with
  | @rule r w hr =>
      obtain rfl : r = .ident := by cases r <;> first | rfl | cases ht
      cases ht
      exact ofSpelling_eq_none hr fun k => ⟨by simp, priority_keyword k⟩
  | character _ _ _ => cases ht
  | unterminated _ _ _ _ => cases ht

theorem op_not_keyword {x : String} (h : Picks text (.op x) w) :
    Keyword.ofSpelling x = none := by
  generalize ht : Token.op x = t at h
  cases h with
  | @rule r w hr =>
      obtain rfl : r = .op := by cases r <;> first | rfl | cases ht
      cases ht
      refine ofSpelling_eq_none hr fun k => ⟨by simp, ?_⟩
      exact Nat.lt_trans (by decide) (priority_keyword k)
  | character _ _ _ => cases ht
  | unterminated _ _ _ _ => cases ht

end Picks

end LanguageService.Lexer
