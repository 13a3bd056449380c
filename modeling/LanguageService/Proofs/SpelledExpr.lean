import LanguageService.Proofs.PrintedExpr
import LanguageService.Proofs.Spelled

namespace LanguageService.Surface

open Surface.Parser Spelling

section Tokens

variable {α : Type} {p : Parser α} {Q : α → Spelling}

theorem punct_consumes (x : Punct) : Consumes (punct x) fun _ => word (.punct x) := by
  refine consumes_token fun t i a h => ?_
  split at h
  · next ht => exact congrArg (fun u => [u]) ht
  · cases h

theorem comma_consumes : Consumes comma fun _ => word (.punct .comma) := punct_consumes .comma

theorem keyword_consumes (k : Keyword) : Consumes (keyword k) (keywordAt k) := by
  refine consumes_token fun t i s h => ?_
  split at h
  · next ht =>
      cases h
      exact ⟨rfl, congrArg (fun u => [u]) ht⟩
  · cases h

theorem ident_consumes : Consumes ident Name.spelled := by
  refine consumes_token fun t i x h => ?_
  split at h
  · cases h
    exact ⟨rfl, rfl⟩
  · cases h

theorem selfName_consumes : Consumes selfName fun x =>
    given (x.text = "self") (spanning x.span (word (.keyword .kwSelf))) := by
  refine consumes_token fun t i x h => ?_
  split at h
  · next ht =>
      cases h
      exact ⟨rfl, rfl, congrArg (fun u => [u]) ht⟩
  · cases h

theorem valueName_consumes : Consumes (orElse ident selfName) Name.spelledValue := by
  refine (ident_consumes.mono ?_).orElse (selfName_consumes.mono ?_)
  · rintro x i ts ⟨hspan, hts⟩
    exact ⟨hspan, .inl hts⟩
  · rintro x i ts ⟨hself, hspan, hts⟩
    exact ⟨hspan, .inr ⟨hself, hts⟩⟩

theorem anyOperator_consumes : Consumes anyOperator Name.spelledOperator := by
  refine consumes_token fun t i x h => ?_
  split at h
  · cases h
    exact ⟨rfl, rfl⟩
  · cases h

theorem operatorIn_consumes (ops : List String) : Consumes (operatorIn ops) fun x =>
    given (ops.contains x.text = true) x.spelledOperator := by
  refine consumes_token fun t i x h => ?_
  split at h
  · split at h
    · next hop =>
        cases h
        exact ⟨hop, rfl, rfl⟩
    · cases h
  · cases h

theorem parens_consumes (hp : Consumes p Q) : Consumes (parens p) fun a => (Q a).inParens :=
  consumes_between (punct_consumes .lparen) (punct_consumes .rparen) hp

theorem brackets_consumes (hp : Consumes p Q) : Consumes (brackets p) fun a => (Q a).inBrackets :=
  consumes_between (punct_consumes .lbracket) (punct_consumes .rbracket) hp

theorem braces_consumes (hp : Consumes p Q) : Consumes (braces p) fun a => (Q a).inBraces :=
  consumes_between (punct_consumes .lbrace) (punct_consumes .rbrace) hp

end Tokens

theorem typeExprAt_consumes (n : Nat) : Consumes (typeExprAt n) TypeExpr.spelled := by
  induction n with
  | zero => exact consumes_fail
  | succ n ih =>
      refine consumes_spanned (consumes_choice ?_)
      simp only [List.mem_cons, List.not_mem_nil, or_false, forall_eq_or_imp, forall_eq]
      constructor
      · exact ident_consumes.map fun x i ts h => ⟨rfl, h⟩
      · refine (parens_consumes (consumes_separatedTrailing comma_consumes ih)).map
          fun es i ts h => ⟨rfl, ?_⟩
        rwa [TypeExpr.spellings_eq_map]

theorem typeExpr_consumes : Consumes typeExpr TypeExpr.spelled :=
  fun c r a c' r' h => typeExprAt_consumes _ c r a c' r' h

theorem patternAt_consumes (n : Nat) : Consumes (patternAt n) Pattern.spelled := by
  induction n with
  | zero => exact consumes_fail
  | succ n ih =>
      refine consumes_spanned (consumes_choice ?_)
      simp only [List.mem_cons, List.not_mem_nil, or_false, forall_eq_or_imp, forall_eq]
      refine ⟨?_, ?_, ?_⟩
      · exact ident_consumes.map fun x i ts h => ⟨rfl, h⟩
      · exact (keyword_consumes .kwUnderscore).map fun s i ts h => ⟨rfl, h.2⟩
      · refine (parens_consumes (consumes_separatedTrailing comma_consumes ih)).map
          fun es i ts h => ⟨rfl, ?_⟩
        rwa [Pattern.spellings_eq_map]

theorem pattern_consumes : Consumes pattern Pattern.spelled :=
  fun c r a c' r' h => patternAt_consumes _ c r a c' r' h

namespace Expr

@[simp]
theorem core_withSpan (s : Span) (e : Expr) : (e.withSpan s).core = e.core := by
  cases e with
  | name _ d _ => cases d <;> rfl
  | _ => rfl

@[simp]
theorem looseness_withSpan (s : Span) (e : Expr) : (e.withSpan s).looseness = e.looseness := by
  cases e <;> rfl

def asOperand (k : Nat) (e : Expr) : Spelling := e.operand e.core k

variable {e : Expr} {k i : Nat} {ts : List Token}

theorem asOperand_of_looseness (hk : e.looseness ≤ k) (hspan : e.span = ⟨i, i + ts.length⟩)
    (h : e.core i ts) : e.asOperand k i ts := by
  refine ⟨hspan, ?_⟩
  rw [if_pos hk]
  exact ⟨0, h⟩

theorem asOperand_of_parenthesized (hspan : e.span = ⟨i, i + ts.length⟩)
    (h : Spelling.parenthesized e.core i ts) : e.asOperand k i ts := by
  refine ⟨hspan, ?_⟩
  split
  · exact enclosed_of_parenthesized h
  · exact h

theorem asOperand_succ (h : e.asOperand k i ts) : e.asOperand (k + 1) i ts := by
  obtain ⟨hspan, h⟩ := h
  by_cases hk : e.looseness ≤ k
  · refine ⟨hspan, ?_⟩
    rw [if_pos (Nat.le_succ_of_le hk)]
    rwa [if_pos hk] at h
  · rw [if_neg hk] at h
    exact asOperand_of_parenthesized hspan h

theorem spelled_of_asOperand (h : e.asOperand k i ts) : e.spelled i ts := by
  obtain ⟨hspan, h⟩ := h
  refine ⟨hspan, ?_⟩
  split at h
  · exact h
  · exact enclosed_of_parenthesized h

end Expr

theorem Span.to_adjacent (i m n : Nat) :
    Span.to ⟨i, i + m⟩ ⟨i + m, i + m + n⟩ = ⟨i, i + (m + n)⟩ := by
  simp only [Span.to, Span.mk.injEq, true_and]
  omega

theorem literal_consumes : Consumes literal fun v => word v.print := by
  refine consumes_token fun t i v h => ?_
  split at h <;> cases h <;> rfl

def Trailer.spelled : Trailer → Spelling
  | call as => (listedTrailing (Expr.argSpellings as)).inParens
  | subscript as => (listedTrailing (Expr.argSpellings as)).inBrackets
  | member x => memberSpelled x

section Inner

variable {inner : Parser Expr} (hinner : Consumes inner Expr.spelled)

include hinner

theorem argIn_consumes : Consumes (argIn inner) Arg.spelled := by
  have hlabel : Consumes (do let x ← ident; punct .colon; return x) labelSpelled :=
    ident_consumes.bind fun x i us hx => .bind (punct_consumes .colon) fun _ vs hcolon =>
      .pure (append_intro hx hcolon)
  exact (consumes_optional hlabel).bind fun label i us hl => .bind hinner fun e vs he =>
    .pure (append_intro hl he)

theorem args_consumes : Consumes (separatedTrailing (argIn inner) comma) fun as =>
    listedTrailing (Expr.argSpellings as) := by
  refine (consumes_separatedTrailing comma_consumes (argIn_consumes hinner)).mono
    fun as i ts h => ?_
  rwa [Expr.argSpellings_eq_map]

omit hinner in
theorem parenthesized_asOperand {es : List Expr} {i : Nat} {ts : List Token}
    (h : (listedTrailing (es.map Expr.spelled)).inParens i ts) :
    (parenthesized es ⟨i, i + ts.length⟩).asOperand 0 i ts := by
  have htuple (hes : es.length ≠ 1) :
      (Expr.tuple ⟨i, i + ts.length⟩ es).asOperand 0 i ts := by
    refine Expr.asOperand_of_looseness (Nat.zero_le _) rfl ?_
    rw [Expr.core, Expr.spellings_eq_map]
    exact ⟨hes, h⟩
  match es, h, htuple with
  | [], _, htuple => exact htuple (by simp)
  | [e], h, _ =>
      refine Expr.asOperand_of_parenthesized (by simp [parenthesized]) ?_
      simp only [parenthesized, Expr.core_withSpan]
      refine parenthesized_intro (append_mono h (fun us hus => append_mono hus (fun _ => id) ?_)
        fun _ _ => id)
      intro j vs hvs
      refine append_mono hvs (fun us hus => ?_) fun _ _ => id
      obtain ⟨us, _, rfl, he, rfl⟩ := hus
      rw [List.append_nil]
      exact he.2
  | _ :: _ :: _, _, htuple => exact htuple (by simp)

theorem atomIn_consumes : Consumes (atomIn inner) (Expr.asOperand 0) := by
  refine consumes_spanned (consumes_choice ?_)
  simp only [List.mem_cons, List.not_mem_nil, or_false, forall_eq_or_imp, forall_eq]
  refine ⟨?_, ?_, ?_⟩
  · exact literal_consumes.map fun v i ts h =>
      Expr.asOperand_of_looseness (Nat.zero_le _) rfl (by rwa [Expr.core])
  · exact valueName_consumes.map fun x i ts h =>
      Expr.asOperand_of_looseness (Nat.zero_le _) rfl (by rwa [Expr.core])
  · exact (parens_consumes (consumes_separatedTrailing comma_consumes hinner)).map
      fun es i ts h => parenthesized_asOperand h

omit hinner in
theorem Trailer.apply_asOperand (t : Trailer) {e : Expr} {i : Nat} {us vs : List Token}
    (he : e.asOperand 0 i us) (ht : t.spelled (i + us.length) vs) :
    (t.apply e ⟨i + us.length, i + us.length + vs.length⟩).asOperand 0 i (us ++ vs) := by
  have hspan : e.span.to ⟨i + us.length, i + us.length + vs.length⟩ =
      ⟨i, i + (us ++ vs).length⟩ := by
    rw [he.1, Span.to_adjacent, List.length_append]
  cases t with
  | call as => exact Expr.asOperand_of_looseness (Nat.zero_le _) hspan (append_intro he ht)
  | subscript as => exact Expr.asOperand_of_looseness (Nat.zero_le _) hspan (append_intro he ht)
  | member x => exact Expr.asOperand_of_looseness (Nat.zero_le _) hspan (append_intro he ht)

theorem trailerIn_consumes : Consumes (trailerIn inner) fun t => spanning t.2 t.1.spelled := by
  refine consumes_spanned (consumes_choice ?_)
  simp only [List.mem_cons, List.not_mem_nil, or_false, forall_eq_or_imp, forall_eq]
  refine ⟨?_, ?_, ?_⟩
  · exact (parens_consumes (args_consumes hinner)).map fun as i ts h => ⟨rfl, h⟩
  · exact (brackets_consumes (args_consumes hinner)).map fun as i ts h => ⟨rfl, h⟩
  · exact (punct_consumes .dot).bind fun _ i us hdot => .bind ident_consumes fun x vs hx =>
      .pure ⟨rfl, append_intro hdot hx⟩

omit hinner in
theorem foldl_asOperand {α : Type} {k : Nat} {put : Expr → α → Expr} {Q : α → Spelling}
    (hput : ∀ e a i us vs, e.asOperand k i us → Q a (i + us.length) vs →
      (put e a).asOperand k i (us ++ vs))
    (as : List α) {e : Expr} {i : Nat} {us vs : List Token} (he : e.asOperand k i us)
    (has : all (as.map Q) (i + us.length) vs) : (as.foldl put e).asOperand k i (us ++ vs) := by
  induction as generalizing e us vs with
  | nil =>
      obtain rfl : vs = [] := has
      simpa using he
  | cons a as ih =>
      obtain ⟨vs, ws, rfl, ha, has⟩ := has
      rw [List.foldl_cons, ← List.append_assoc]
      refine ih (hput e a i us vs he ha) ?_
      rwa [List.length_append, ← Nat.add_assoc]

theorem operandIn_consumes : Consumes (operandIn inner) (Expr.asOperand 0) := by
  refine (atomIn_consumes hinner).bind fun e i us he =>
    .bind (consumes_many (trailerIn_consumes hinner)) fun ts vs hts => .pure ?_
  refine foldl_asOperand ?_ ts he hts
  rintro e ⟨t, s⟩ i us vs he ⟨rfl, ht⟩
  exact t.apply_asOperand he ht

omit hinner in
theorem binaryLevel_consumes {operand : Parser Expr} {k : Nat} (hk : k < precedence.length)
    (hoperand : Consumes operand (Expr.asOperand k)) :
    Consumes (binaryLevel operand precedence[k]) (Expr.asOperand (k + 1)) := by
  have hpair : Consumes (do
        let op ← operatorIn precedence[k]
        let rhs ← operand
        return (op, rhs)) fun a => given (level a.1.text = k)
          (a.1.spelledOperator ++ a.2.asOperand k) := by
    refine (operatorIn_consumes _).bind fun op i us hop => .bind hoperand fun rhs vs hrhs =>
      .pure ⟨?_, append_intro hop.2 hrhs⟩
    exact (contains_iff_level hk op.text).mp hop.1
  refine hoperand.bind fun e i us he => .bind (consumes_many hpair) fun ps vs hps => .pure ?_
  refine foldl_asOperand ?_ ps (Expr.asOperand_succ he) hps
  rintro l ⟨op, r⟩ i us vs hl ⟨rfl, ws, rs, rfl, hop, hr⟩
  have hspan : l.span.to r.span = ⟨i, i + (us ++ (ws ++ rs)).length⟩ := by
    rw [hl.1, hr.1, List.length_append, List.length_append]
    simp only [Span.to, Span.mk.injEq, true_and]
    omega
  refine Expr.asOperand_of_looseness (Nat.le_refl _) hspan ?_
  rw [Expr.core]
  exact ⟨hk, append_intro hl (append_intro hop hr)⟩

theorem levelParser_consumes (k : Nat) (hk : k ≤ precedence.length) :
    Consumes (levelParser inner k) (Expr.asOperand k) := by
  induction k with
  | zero => exact operandIn_consumes hinner
  | succ k ih =>
      rw [levelParser_succ inner hk]
      exact binaryLevel_consumes hk (ih (Nat.le_of_lt hk))

theorem exprIn_consumes : Consumes (exprIn inner) Expr.spelled := by
  rw [exprIn_eq]
  exact (levelParser_consumes hinner _ (Nat.le_refl _)).mono
    fun e i ts h => Expr.spelled_of_asOperand h

end Inner

theorem exprAt_consumes (n : Nat) : Consumes (exprAt n) Expr.spelled := by
  induction n with
  | zero => exact consumes_fail
  | succ n ih => exact exprIn_consumes ih

theorem expr_consumes : Consumes expr Expr.spelled :=
  fun c r a c' r' h => exprAt_consumes _ c r a c' r' h

end LanguageService.Surface
