import LanguageService.Proofs.PrintedExpr
import LanguageService.Proofs.SpelledDecl

/-!
The recursive parsers are those that the grammar describes: the depth to which they are unrolled
does not show, since a construct nests only behind tokens of its own.
-/
namespace LanguageService.Surface

namespace Parser

variable {α β : Type}

def Takes (n : Nat) (p : Parser α) : Prop :=
  ∀ c r a c' r', p c r = (some (a, c'), r') → c'.rest.length + n ≤ c.rest.length

def Agree (L : Nat) (p q : Parser α) : Prop :=
  ∀ c r, c.rest.length < L → p c r = q c r

variable {p q : Parser α} {f g : α → Parser β} {m n L : Nat}

theorem Consumes.takes {Q : α → Spelling} (h : Consumes p Q) : Takes 0 p := by
  intro c r a c' r' hp
  obtain ⟨ts, hrest, -⟩ := h c r a c' r' hp
  rw [hrest, List.length_append]
  omega

theorem takes_token {accept : Token → Span → Option α} : Takes 1 (token accept) := by
  intro c r a c' r' h
  rw [token] at h
  split at h
  · cases h
  · next t rest hrest =>
      split at h
      · cases h
        rw [hrest]
        exact Nat.le_refl _
      · cases h

theorem takes_pure {a : α} : Takes 0 (pure a : Parser α) := by
  intro c r b c' r' h
  cases h
  exact Nat.le_refl _

theorem Takes.mono (h : Takes n p) (hm : m ≤ n) : Takes m p :=
  fun c r a c' r' hp => Nat.le_trans (Nat.add_le_add_left hm _) (h c r a c' r' hp)

theorem Takes.bind (hp : Takes m p) (hf : ∀ a, Takes n (f a)) : Takes (m + n) (p >>= f) := by
  intro c r b c' r' h
  rw [bind_apply] at h
  split at h
  · next a c₁ r₁ ha =>
      have hfirst := hp c r a c₁ r₁ ha
      have hsecond := hf a c₁ r₁ b c' r' h
      omega
  · cases h

theorem Takes.then (hp : Takes 1 p) (hf : ∀ a, Takes 0 (f a)) : Takes 1 (p >>= f) := hp.bind hf

theorem Takes.map {k : α → β} (hp : Takes n p) : Takes n (do let a ← p; return k a) :=
  hp.bind fun _ => takes_pure

theorem Takes.orElse (hp : Takes n p) (hq : Takes n q) : Takes n (orElse p q) := by
  intro c r a c' r' h
  rw [Parser.orElse] at h
  split at h
  · next x r₁ hx =>
      cases h
      exact hp c r a c' r' hx
  · next r₁ _ => exact hq c r₁ a c' r' h

theorem takes_choice {ps : List (Parser α)} (h : ∀ p ∈ ps, Takes n p) : Takes n (choice ps) := by
  induction ps with
  | nil =>
      intro c r a c' r' h
      cases h
  | cons p ps ih => exact (h p (by simp)).orElse (ih fun q hq => h q (by simp [hq]))

theorem Takes.spanned {p : Parser (Span → α)} (hp : Takes n p) : Takes n (spanned p) := by
  intro c r a c' r' h
  rw [Parser.spanned] at h
  split at h
  · next f c₁ r₁ hf =>
      cases h
      exact hp c r f c' r' hf
  · cases h

theorem Takes.optional (hp : Takes n p) : Takes 0 (optional p) :=
  (hp.map.mono (Nat.zero_le n)).orElse takes_pure

theorem Takes.between {left right : Parser Unit} (hl : Takes 1 left) (hp : Takes 0 p)
    (hr : Takes 1 right) : Takes 1 (between left right p) :=
  hl.then fun _ => hp.bind fun _ => .mono hr.map (Nat.zero_le 1)

theorem Takes.many (hp : Takes 0 p) : Takes 0 (many p) := by
  have hattempts (n : Nat) : Takes 0 (manyUpTo p n) := by
    induction n with
    | zero => exact takes_pure
    | succ n ih =>
        intro c r as c' r' h
        rw [manyUpTo_succ] at h
        split at h
        · next a c₁ r₁ ha =>
            have hfirst := hp c r a c₁ r₁ ha
            have hrest := Takes.map (k := (a :: ·)) ih c₁ r₁ as c' r' h
            omega
        · cases h
          exact Nat.le_refl _
  exact fun c r as c' r' h => hattempts _ c r as c' r' h

theorem Takes.separatedTrailing {sep : Parser Unit} (hp : Takes 0 p) (hsep : Takes 1 sep) :
    Takes 0 (separatedTrailing p sep) :=
  .orElse (.bind hp fun _ => .bind (.many (.mono (hsep.then fun _ => hp) (Nat.zero_le 1)))
    fun _ => .map hsep.optional) takes_pure

section Many

variable (hp : Takes 1 p)

include hp

theorem manyUpTo_agree {m n : Nat} {c : Cursor} (hm : c.rest.length < m) (hn : c.rest.length < n)
    (r : Refusal) : manyUpTo p m c r = manyUpTo p n c r := by
  induction m generalizing n c r with
  | zero => exact absurd hm (Nat.not_lt_zero _)
  | succ m ih =>
      obtain ⟨n, rfl⟩ := Nat.exists_eq_add_one_of_ne_zero (Nat.ne_zero_of_lt hn)
      rw [manyUpTo_succ, manyUpTo_succ]
      split
      · next a c₁ r₁ ha =>
          have hlt := hp c r a c₁ r₁ ha
          rw [bind_apply, bind_apply, ih (n := n) (by omega) (by omega)]
      · rfl

theorem many_eq : many p =
    orElse (do
      let a ← p
      let as ← many p
      return a :: as) (pure []) := by
  have hsome (n : Nat) : ∀ c r, ∃ x r', manyUpTo p n c r = (some x, r') := by
    induction n with
    | zero => exact fun c r => ⟨_, _, rfl⟩
    | succ n ih =>
        intro c r
        rw [manyUpTo_succ]
        split
        · next a c₁ r₁ _ =>
            obtain ⟨x, r', hx⟩ := ih c₁ r₁
            exact ⟨(a :: x.1, x.2), r', by rw [bind_apply, hx]; rfl⟩
        · exact ⟨_, _, rfl⟩
  funext c r
  rw [many, manyUpTo_succ, Parser.orElse, bind_apply]
  cases h : p c r with
  | mk o r₁ =>
      cases o with
      | none => rfl
      | some x =>
          obtain ⟨a, c₁⟩ := x
          have hlt := hp c r a c₁ r₁ h
          obtain ⟨x, r', hx⟩ := hsome (c₁.rest.length + 1) c₁ r₁
          have hfewer := manyUpTo_agree hp (c := c₁) (m := c.rest.length)
            (n := c₁.rest.length + 1) (by omega) (by omega) r₁
          simp only [bind_apply, many, hfewer, hx]
          rfl

end Many

theorem Agree.refl (p : Parser α) (L : Nat) : Agree L p p := fun _ _ _ => rfl

theorem Agree.mono (h : Agree n p q) (hm : m ≤ n) : Agree m p q :=
  fun c r hc => h c r (Nat.lt_of_lt_of_le hc hm)

theorem Agree.bind (hp : Agree (L + n) p q) (ht : Takes n q) (hf : ∀ a, Agree L (f a) (g a)) :
    Agree (L + n) (p >>= f) (q >>= g) := by
  intro c r hc
  rw [bind_apply, bind_apply, hp c r hc]
  split
  · next a c₁ r₁ ha =>
      have hle := ht c r a c₁ r₁ ha
      exact hf a c₁ r₁ (by omega)
  · rfl

theorem Agree.after (ht : Takes 1 p) (hf : ∀ a, Agree L (f a) (g a)) :
    Agree (L + 1) (p >>= f) (p >>= g) := .bind (.refl p _) ht hf

theorem Agree.andThen (hp : Agree L p q) (f : α → Parser β) : Agree L (p >>= f) (q >>= f) := by
  intro c r hc
  rw [bind_apply, bind_apply, hp c r hc]

theorem Agree.orElse {p' q' : Parser α} (hp : Agree L p q) (hp' : Agree L p' q') :
    Agree L (orElse p p') (orElse q q') := by
  intro c r hc
  rw [Parser.orElse, Parser.orElse, hp c r hc]
  split
  · rfl
  · exact hp' c _ hc

theorem Agree.spanned {p q : Parser (Span → α)} (h : Agree L p q) :
    Agree L (spanned p) (spanned q) := by
  intro c r hc
  rw [Parser.spanned, Parser.spanned, h c r hc]

theorem Agree.optional (h : Agree L p q) : Agree L (optional p) (optional q) :=
  (h.andThen _).orElse (.refl _ L)

theorem Agree.many (h : Agree L p q) (hp : Takes 1 p) (hq : Takes 1 q) :
    Agree L (many p) (many q) := by
  induction L with
  | zero => exact fun c r hc => absurd hc (Nat.not_lt_zero _)
  | succ L ih =>
      rw [many_eq hp, many_eq hq]
      exact .orElse (.bind h hq fun a => (ih (h.mono (Nat.le_succ L))).andThen _) (.refl _ _)

theorem Agree.between {left right : Parser Unit} (ht : Takes 1 left) (h : Agree L p q) :
    Agree (L + 1) (between left right p) (between left right q) :=
  .after ht fun _ => h.andThen _

theorem Agree.separatedTrailing {sep : Parser Unit} (hsep : Takes 1 sep) (h : Agree L p q)
    (hp : Takes 0 p) (hq : Takes 0 q) :
    Agree L (separatedTrailing p sep) (separatedTrailing q sep) := by
  have helement : Agree (L + 1) (sep >>= fun _ => p) (sep >>= fun _ => q) :=
    .after hsep fun _ => h
  have hmany := (helement.mono (Nat.le_succ L)).many (hsep.then fun _ => hp)
    (hsep.then fun _ => hq)
  exact .orElse (.bind (n := 0) h hq fun a => hmany.andThen _) (.refl _ L)

theorem eq_of_unrolled {p : Parser α} (unrolled : Nat → Parser α)
    {describe : Parser α → Parser α} (Good : Parser α → Prop)
    (hp : ∀ c r, p c r = unrolled (c.rest.length + 1) c r)
    (hsucc : ∀ n c r, unrolled (n + 1) c r = describe (unrolled n) c r)
    (hdescribe : ∀ L p q, Good p → Good q → Agree L p q → Agree (L + 1) (describe p) (describe q))
    (hgood : Good p) (hunrolled : ∀ n, Good (unrolled n)) : p = describe p := by
  have hdeeper (L m : Nat) : Agree L (unrolled (L + m)) (unrolled L) := by
    induction L with
    | zero => exact fun c r hc => absurd hc (Nat.not_lt_zero _)
    | succ L ih =>
        intro c r hc
        rw [Nat.succ_add, hsucc, hsucc]
        exact hdescribe L _ _ (hunrolled _) (hunrolled L) ih c r hc
  have hlimit (L : Nat) : Agree L p (unrolled L) := by
    intro c r hc
    obtain ⟨m, rfl⟩ := Nat.exists_eq_add_of_le hc
    rw [hp]
    exact (hdeeper _ m c r (Nat.lt_succ_self _)).symm
  funext c r
  rw [hp, hsucc]
  exact (hdescribe _ _ _ hgood (hunrolled _) (hlimit _) c r (Nat.lt_succ_self _)).symm

end Parser

open Parser

theorem punct_takes (x : Punct) : Takes 1 (punct x) := takes_token

theorem comma_takes : Takes 1 comma := punct_takes .comma

theorem keyword_takes (k : Keyword) : Takes 1 (keyword k) := takes_token

theorem ident_takes : Takes 1 ident := takes_token

section Lists

variable {α : Type} {p q : Parser α} {L : Nat}

theorem list_takes {left right : Punct} (hp : Takes 0 p) :
    Takes 1 (between (punct left) (punct right) (separatedTrailing p comma)) :=
  .between (punct_takes left) (hp.separatedTrailing comma_takes) (punct_takes right)

theorem list_agree (left right : Punct) (h : Agree L p q) (hp : Takes 0 p) (hq : Takes 0 q) :
    Agree (L + 1) (between (punct left) (punct right) (separatedTrailing p comma))
      (between (punct left) (punct right) (separatedTrailing q comma)) :=
  .between (punct_takes left) (h.separatedTrailing comma_takes hp hq)

end Lists

theorem typeExpr_eq : typeExpr = typeExprIn typeExpr := by
  refine eq_of_unrolled typeExprAt (Takes 0) (fun _ _ => rfl)
    (fun _ _ _ => rfl) (fun L p q hp hq h => ?_) typeExpr_consumes.takes
    fun n => (typeExprAt_consumes n).takes
  exact .spanned (.orElse (.refl _ _) (.orElse ((list_agree _ _ h hp hq).andThen _) (.refl _ _)))

theorem pattern_eq : pattern = patternIn pattern := by
  refine eq_of_unrolled patternAt (Takes 0) (fun _ _ => rfl)
    (fun _ _ _ => rfl) (fun L p q hp hq h => ?_) pattern_consumes.takes
    fun n => (patternAt_consumes n).takes
  exact .spanned (.orElse (.refl _ _) (.orElse (.refl _ _)
    (.orElse ((list_agree _ _ h hp hq).andThen _) (.refl _ _))))

section Expressions

variable {p q : Parser Expr} {L : Nat}

theorem argIn_agree (h : Agree L p q) : Agree L (argIn p) (argIn q) := by
  have hlabel : Takes 0 (optional (ident >>= fun x => punct .colon >>= fun _ => pure x)) :=
    .optional (ident_takes.then fun _ => .mono (punct_takes .colon).map (Nat.zero_le 1))
  exact .bind (n := 0) (.refl _ _) hlabel fun _ => h.andThen _

variable (hp : Takes 0 p)

include hp

theorem argIn_takes : Takes 0 (argIn p) :=
  .bind (Takes.optional (ident_takes.then fun _ => .mono (punct_takes .colon).map (Nat.zero_le 1)))
    fun _ => hp.map

theorem trailerIn_takes : Takes 1 (trailerIn p) := by
  refine .spanned (takes_choice ?_)
  simp only [List.mem_cons, List.not_mem_nil, or_false, forall_eq_or_imp, forall_eq]
  exact ⟨(list_takes (argIn_takes hp)).map, (list_takes (argIn_takes hp)).map,
    (punct_takes .dot).then fun _ => .mono ident_takes.map (Nat.zero_le 1)⟩

theorem atomIn_takes : Takes 1 (atomIn p) := by
  refine .spanned (takes_choice ?_)
  simp only [List.mem_cons, List.not_mem_nil, or_false, forall_eq_or_imp, forall_eq]
  exact ⟨.map takes_token, .map (ident_takes.orElse takes_token), (list_takes hp).map⟩

theorem operandIn_takes : Takes 1 (operandIn p) :=
  (atomIn_takes hp).then fun _ => .map (.many ((trailerIn_takes hp).mono (Nat.zero_le 1)))

omit hp in
theorem operation_takes (ops : List String) (hp : Takes 1 p) :
    Takes 1 (operatorIn ops >>= fun op => p >>= fun rhs => pure (op, rhs)) :=
  .then takes_token fun _ => .map (hp.mono (Nat.zero_le 1))

theorem levelParser_takes (k : Nat) (hk : k ≤ precedence.length) : Takes 1 (levelParser p k) := by
  induction k with
  | zero => exact operandIn_takes hp
  | succ k ih =>
      rw [levelParser_succ p hk]
      have hoperand := ih (by omega)
      exact hoperand.then fun _ => .map (.many ((operation_takes _ hoperand).mono (Nat.zero_le 1)))

variable (hq : Takes 0 q) (h : Agree L p q)

include hq h

theorem trailerIn_agree : Agree (L + 1) (trailerIn p) (trailerIn q) :=
  have hargs {left right : Punct} := list_agree left right
    (argIn_agree h) (argIn_takes hp) (argIn_takes hq)
  .spanned (.orElse (hargs.andThen _) (.orElse (hargs.andThen _) (.refl _ _)))

theorem operandIn_agree : Agree (L + 1) (operandIn p) (operandIn q) := by
  have hatom : Agree (L + 1) (atomIn p) (atomIn q) :=
    .spanned (.orElse (.refl _ _) (.orElse (.refl _ _)
      (.orElse ((list_agree _ _ h hp hq).andThen _) (.refl _ _))))
  have htrailers := ((trailerIn_agree hp hq h).mono (Nat.le_succ L)).many (trailerIn_takes hp)
    (trailerIn_takes hq)
  exact .bind hatom (atomIn_takes hq) fun _ => htrailers.andThen _

theorem levelParser_agree (k : Nat) (hk : k ≤ precedence.length) :
    Agree (L + 1) (levelParser p k) (levelParser q k) := by
  induction k with
  | zero => exact operandIn_agree hp hq h
  | succ k ih =>
      rw [levelParser_succ p hk, levelParser_succ q hk]
      have hoperand := ih (by omega)
      have hp' := levelParser_takes hp k (by omega)
      have hq' := levelParser_takes hq k (by omega)
      have hrest := (Agree.after (takes_token : Takes 1 (operatorIn precedence[k]))
        fun op => (hoperand.mono (Nat.le_succ L)).andThen fun rhs => pure (op, rhs)).mono
          (Nat.le_succ L) |>.many (operation_takes _ hp') (operation_takes _ hq')
      exact .bind hoperand hq' fun _ => hrest.andThen _

end Expressions

theorem expr_eq : expr = exprIn expr := by
  refine eq_of_unrolled exprAt (Takes 0) (fun _ _ => rfl)
    (fun _ _ _ => rfl) (fun L p q hp hq h => ?_) expr_consumes.takes
    fun n => (exprAt_consumes n).takes
  rw [exprIn_eq, exprIn_eq]
  exact levelParser_agree hp hq h _ (Nat.le_refl _)

theorem expr_takes : Takes 1 expr := by
  rw [expr_eq, exprIn_eq]
  exact levelParser_takes expr_consumes.takes _ (Nat.le_refl _)

section Items

variable {α : Type} {p q : Parser α} {L : Nat}

theorem terminated_takes (hp : Takes 1 p) : Takes 1 (terminated p) :=
  hp.then fun _ => .map (punct_takes .semi).optional

theorem items_takes (hp : Takes 1 p) : Takes 1 (braces (many (terminated p))) :=
  .between (punct_takes _) (.many ((terminated_takes hp).mono (Nat.zero_le 1))) (punct_takes _)

theorem items_agree (h : Agree L p q) (hp : Takes 1 p) (hq : Takes 1 q) :
    Agree (L + 1) (braces (many (terminated p))) (braces (many (terminated q))) :=
  .between (punct_takes _) ((h.andThen _).many (terminated_takes hp) (terminated_takes hq))

end Items

section Statements

variable {p q block block' : Parser Stmt} {L : Nat}

theorem binding_takes : Takes 1 binding :=
  .then takes_token fun _ => .bind pattern_consumes.takes fun _ =>
    .bind (consumes_optional ascription_consumes).takes fun _ =>
      .map (consumes_optional assigned_consumes).takes

theorem conditionalIn_takes (hblock : Takes 0 block) (hp : Takes 0 p) :
    Takes 1 (conditionalIn block p) :=
  .spanned ((keyword_takes .kwIf).then fun _ => .bind expr_consumes.takes fun _ =>
    .bind hblock fun _ => .map (.optional ((keyword_takes .kwElse).then fun _ =>
      .map (hblock.orElse hp))))

theorem conditionalAt_takes (hblock : Takes 0 block) (n : Nat) :
    Takes 1 (conditionalAt block n) := by
  induction n with
  | zero => exact fun c r a c' r' h => by cases h
  | succ n ih => exact conditionalIn_takes hblock (ih.mono (Nat.zero_le 1))

theorem simpleStmt_takes (hblock : Takes 0 block) : Takes 1 (simpleStmt block) := by
  refine .spanned (takes_choice ?_)
  simp only [List.mem_cons, List.not_mem_nil, or_false, forall_eq_or_imp, forall_eq]
  refine ⟨?_, ?_, ?_, ?_⟩
  · exact (keyword_takes .kwReturn).then fun _ => .map (consumes_optional expr_consumes).takes
  · exact (keyword_takes .kwWhile).then fun _ => .bind expr_consumes.takes fun _ => .map hblock
  · exact .map binding_takes
  · refine expr_takes.then fun _ =>
      .bind (n := 0) (consumes_optional assigned_consumes).takes fun rhs => ?_
    cases rhs <;> exact takes_pure

theorem conditionalIn_agree (hblock : Agree L block block') (ht : Takes 0 block')
    (h : Agree L p q) : Agree (L + 1) (conditionalIn block p) (conditionalIn block' q) := by
  have helse := Agree.after (keyword_takes .kwElse) fun k =>
    (hblock.orElse h).andThen fun s => pure (k, s)
  exact .spanned (.after (keyword_takes .kwIf) fun _ => .bind (n := 0) (.refl _ _)
    expr_consumes.takes fun _ => .bind (n := 0) hblock ht fun _ =>
      (helse.mono (Nat.le_succ L)).optional.andThen _)

def conditional (block : Parser Stmt) : Parser Stmt := fun c r =>
  conditionalAt block (c.rest.length + 1) c r

theorem conditional_takes (hblock : Takes 0 block) : Takes 1 (conditional block) :=
  fun c r a c' r' h => conditionalAt_takes hblock _ c r a c' r' h

theorem conditional_eq (hblock : Takes 0 block) :
    conditional block = conditionalIn block (conditional block) :=
  eq_of_unrolled (conditionalAt block) (fun _ => True) (fun _ _ => rfl)
    (fun _ _ _ => rfl) (fun _ _ _ _ _ h => conditionalIn_agree (.refl _ _) hblock h) trivial
    fun _ => trivial

theorem conditional_agree (h : Agree L block block') (ht : Takes 0 block) (ht' : Takes 0 block') :
    Agree (L + 1) (conditional block) (conditional block') := by
  induction L with
  | zero =>
      rw [conditional_eq ht, conditional_eq ht']
      exact conditionalIn_agree h ht' fun c r hc => absurd hc (Nat.not_lt_zero _)
  | succ L ih =>
      rw [conditional_eq ht, conditional_eq ht']
      exact conditionalIn_agree h ht' (ih (h.mono (Nat.le_succ L)))

theorem simpleStmt_agree (h : Agree L block block') :
    Agree (L + 1) (simpleStmt block) (simpleStmt block') :=
  .spanned (.orElse (.refl _ _) (.orElse (.after (keyword_takes .kwWhile) fun _ =>
    .bind (n := 0) (.refl _ _) expr_consumes.takes fun _ => h.andThen _) (.refl _ _)))

theorem blockOf_takes (hp : Takes 1 p) : Takes 1 (blockOf p) := .spanned (items_takes hp).map

theorem stmtIn_takes (hp : Takes 1 p) : Takes 1 (stmtIn p) := by
  have hblock := (blockOf_takes hp).mono (Nat.zero_le 1)
  exact (blockOf_takes hp).orElse ((conditional_takes hblock).orElse
    ((simpleStmt_takes hblock).orElse fun c r a c' r' h => by cases h))

theorem stmtIn_agree (hp : Takes 1 p) (hq : Takes 1 q) (h : Agree L p q) :
    Agree (L + 1) (stmtIn p) (stmtIn q) := by
  have hblock : Agree (L + 1) (blockOf p) (blockOf q) := .spanned ((items_agree h hp hq).andThen _)
  have hblock' := hblock.mono (Nat.le_succ L)
  exact .orElse hblock (.orElse (conditional_agree hblock'
    ((blockOf_takes hp).mono (Nat.zero_le 1)) ((blockOf_takes hq).mono (Nat.zero_le 1)))
      (.orElse (simpleStmt_agree hblock') (.refl _ _)))

end Statements

theorem stmtAt_takes (n : Nat) : Takes 1 (stmtAt n) := by
  induction n with
  | zero => exact fun c r a c' r' h => by cases h
  | succ n ih => exact stmtIn_takes ih

theorem stmt_takes : Takes 1 stmt := fun c r a c' r' h => stmtAt_takes _ c r a c' r' h

theorem stmt_eq : stmt = stmtIn stmt :=
  eq_of_unrolled stmtAt (Takes 1) (fun _ _ => rfl) (fun _ _ _ => rfl)
    (fun _ _ _ => stmtIn_agree) stmt_takes stmtAt_takes

section Declarations

variable {p q : Parser Decl} {L : Nat}

theorem Spelling.ne_nil_append {P Q : Spelling} (h : ∀ i, ¬ P i []) (i : Nat) :
    ¬ (P ++ Q) i [] := by
  rintro ⟨us, vs, hnil, hP, -⟩
  obtain ⟨rfl, -⟩ := List.append_eq_nil_iff.mp hnil.symm
  exact h i hP

theorem Decl.spelled_ne_nil (d : Decl) (i : Nat) : ¬ d.spelled i [] := by
  have hkeyword (k : Keyword) (s : Span) (i : Nat) : ¬ keywordAt k s i [] := by
    rintro ⟨-, hnil⟩
    cases hnil
  cases d <;> rintro ⟨-, h⟩ <;> revert h
  case binding s b =>
    have hintroducer (i : Nat) : ¬ Spelling.spanning b.introducerSpan
        (Spelling.word (Introducer.print b.introducer)) i [] := by
      rintro ⟨-, hnil⟩
      cases hnil
    exact Spelling.ne_nil_append (Spelling.ne_nil_append (Spelling.ne_nil_append hintroducer)) i
  all_goals repeat first | exact hkeyword _ _ _ | exact hkeyword _ _ | apply Spelling.ne_nil_append

theorem decl_takes_of_consumes (h : Consumes p Decl.spelled) : Takes 1 p := by
  intro c r d c' r' hp
  obtain ⟨ts, hrest, -, hts⟩ := h c r d c' r' hp
  have hne : 0 < ts.length := List.length_pos_iff.mpr fun hnil =>
    d.spelled_ne_nil c.pos (hnil ▸ hts)
  rw [hrest, List.length_append]
  omega

theorem declIn_agree (hp : Takes 1 p) (hq : Takes 1 q) (h : Agree L p q) :
    Agree (L + 1) (declIn p) (declIn q) := by
  have hmembers := (items_agree h hp hq).mono (Nat.le_succ L)
  have hms {f : List Decl → Parser (Span → Decl)} := hmembers.andThen f
  refine .spanned (.orElse ?_ (.orElse ?_ (.orElse ?_ (.orElse ?_ (.refl _ _)))))
  · exact .after (keyword_takes _) fun _ => .bind (n := 0) (.refl _ _) ident_consumes.takes
      fun _ => hms
  · exact .after (keyword_takes _) fun _ => .bind (n := 0) (.refl _ _) ident_consumes.takes
      fun _ => .bind (n := 0) (.refl _ _) generics_consumes.takes fun _ => hms
  · exact .after (keyword_takes _) fun _ => .bind (n := 0) (.refl _ _) typeExpr_consumes.takes
      fun _ => hms
  · exact .after (keyword_takes _) fun _ => .bind (n := 0) (.refl _ _) typeExpr_consumes.takes
      fun _ => .bind (n := 0) (.refl _ _) (punct_consumes _).takes fun _ =>
        .bind (n := 0) (.refl _ _) (consumes_separated1 comma_consumes typeExpr_consumes).takes
          fun _ => hms

end Declarations

theorem decl_takes : Takes 1 decl := decl_takes_of_consumes decl_consumes

theorem decl_eq : decl = declIn decl :=
  eq_of_unrolled declAt (Takes 1) (fun _ _ => rfl) (fun _ _ _ => rfl)
    (fun _ _ _ => declIn_agree) decl_takes fun n => decl_takes_of_consumes (declAt_consumes n)

end LanguageService.Surface
