import LanguageService.Proofs.SpelledExpr

namespace LanguageService.Surface

open Surface.Parser Spelling

theorem ascription_consumes : Consumes ascription ascriptionSpelled :=
  (punct_consumes .colon).bind fun _ _ _ hcolon => .last typeExpr_consumes fun _ _ ht =>
    append_intro hcolon ht

theorem assigned_consumes : Consumes assigned assignedSpelled :=
  (punct_consumes .assign).bind fun _ _ _ hassign => .last expr_consumes fun _ _ he =>
    append_intro hassign he

theorem introducer_consumes : Consumes introducer fun x =>
    spanning x.2 (word (Introducer.print x.1)) := by
  refine consumes_token fun t i x h => ?_
  split at h <;> cases h <;> exact ⟨rfl, rfl⟩

theorem binding_consumes : Consumes binding Binding.spelled :=
  introducer_consumes.bind fun _ _ _ hi => .bind pattern_consumes fun _ _ hp =>
    .bind (consumes_optional ascription_consumes) fun _ _ ht =>
      .bind (consumes_optional assigned_consumes) fun _ _ he =>
        .pure (append_intro (append_intro (append_intro hi hp) ht) he)

theorem items_consumes {α : Type} {p : Parser α} {Q : α → Spelling} (hp : Consumes p Q) :
    Consumes (many (terminated p)) fun as => items (as.map Q) := by
  have hitem : Consumes (terminated p) fun a => Q a ++ maybe (.punct .semi) :=
    hp.bind fun _ _ _ ha => .bind (consumes_maybe (punct_consumes .semi)) fun _ _ hsemi =>
      .pure (append_intro ha hsemi)
  refine (consumes_many hitem).mono fun as i ts h => ?_
  rwa [items, List.map_map]

section Statements

variable {inner block : Parser Stmt}

theorem blockOf_consumes (hinner : Consumes inner Stmt.spelled) :
    Consumes (blockOf inner) Stmt.spelled := by
  refine consumes_spanned ((braces_consumes (items_consumes hinner)).map fun ss i ts h => ⟨rfl, ?_⟩)
  rwa [Stmt.spellings_eq_map]

variable (hblock : Consumes block Stmt.spelled)

include hblock

theorem conditionalIn_consumes (hinner : Consumes inner Stmt.spelled) :
    Consumes (conditionalIn block inner) Stmt.spelled := by
  have helse : Consumes (do
        let k ← keyword .kwElse
        return (k, ← orElse block inner)) fun x => keywordAt .kwElse x.1 ++ x.2.spelled :=
    (keyword_consumes .kwElse).bind fun _ _ _ hk => .bind (hblock.orElse hinner) fun _ _ hs =>
      .pure (append_intro hk hs)
  refine consumes_spanned ((keyword_consumes .kwIf).bind fun k i us hk =>
    .bind expr_consumes fun e vs he => .bind hblock fun yes ws hyes =>
      .bind (consumes_optional helse) fun failure xs hno => .pure ?_)
  match failure, hno with
  | none, hno =>
      obtain rfl : xs = [] := hno
      rw [List.append_nil]
      exact ⟨rfl, append_intro (append_intro hk he) hyes⟩
  | some (other, no), hno =>
      exact ⟨rfl, append_intro (append_intro (append_intro hk he) hyes) hno⟩

theorem conditionalAt_consumes (n : Nat) : Consumes (conditionalAt block n) Stmt.spelled := by
  induction n with
  | zero => exact consumes_fail
  | succ n ih => exact conditionalIn_consumes hblock ih

omit hblock in
theorem expressionStmt_consumes : Consumes (do
      let lhs ← expr
      match ← Parser.optional assigned with
      | some rhs => return fun s => Stmt.assign s lhs rhs
      | none => return fun s => Stmt.expr s lhs) fun f i ts =>
        (f ⟨i, i + ts.length⟩).spelled i ts := by
  refine expr_consumes.bind fun lhs i us hl =>
    .bind (consumes_optional assigned_consumes) fun rhs vs hr => ?_
  cases rhs with
  | some rhs => exact .pure ⟨rfl, append_intro hl hr⟩
  | none =>
      obtain rfl : vs = [] := hr
      refine .pure ⟨rfl, ?_⟩
      rwa [List.append_nil]

theorem simpleStmt_consumes : Consumes (simpleStmt block) Stmt.spelled := by
  refine consumes_spanned (consumes_choice ?_)
  simp only [List.mem_cons, List.not_mem_nil, or_false, forall_eq_or_imp, forall_eq]
  refine ⟨?_, ?_, ?_, ?_⟩
  · exact (keyword_consumes .kwReturn).bind fun _ _ _ hk =>
      .bind (consumes_optional expr_consumes) fun _ _ hv => .pure ⟨rfl, append_intro hk hv⟩
  · exact (keyword_consumes .kwWhile).bind fun _ _ _ hk => .bind expr_consumes fun _ _ he =>
      .bind hblock fun _ _ hb => .pure ⟨rfl, append_intro (append_intro hk he) hb⟩
  · exact binding_consumes.map fun b i ts h => ⟨rfl, h⟩
  · exact expressionStmt_consumes

end Statements

theorem stmtAt_consumes (n : Nat) : Consumes (stmtAt n) Stmt.spelled := by
  induction n with
  | zero => exact consumes_fail
  | succ n ih =>
      have hblock := blockOf_consumes ih
      have hcond : Consumes (fun c r =>
          conditionalAt (blockOf (stmtAt n)) (c.rest.length + 1) c r) Stmt.spelled :=
        fun c r a c' r' h => conditionalAt_consumes hblock _ c r a c' r' h
      exact hblock.orElse (hcond.orElse ((simpleStmt_consumes hblock).orElse consumes_fail))

theorem stmt_consumes : Consumes stmt Stmt.spelled :=
  fun c r a c' r' h => stmtAt_consumes _ c r a c' r' h

theorem block_consumes : Consumes block Stmt.spelled := blockOf_consumes stmt_consumes

theorem operatorIn_singleton_consumes (x : String) :
    Consumes (operatorIn [x]) fun _ => word (.op x) := by
  refine (operatorIn_consumes [x]).mono fun y i ts h => ?_
  have htext : y.text = x := by simpa using h.1
  rw [← htext]
  exact h.2.2

theorem generics_consumes : Consumes generics genericsSpelled := by
  have hlist : Consumes (do
        let _ ← operatorIn ["<"]
        let xs ← separated1 ident comma
        let _ ← operatorIn [">"]
        return xs) fun xs => given (xs ≠ []) (genericsSpelled xs) := by
    refine (operatorIn_singleton_consumes "<").bind fun _ i us hl =>
      .bind (p := separated1 ident comma) (Q := fun xs => given (xs ≠ [])
        (listed (xs.map Name.spelled))) ?_ fun xs vs hxs =>
          .bind (operatorIn_singleton_consumes ">") fun _ ws hr => .pure ⟨hxs.1, ?_⟩
    · exact ident_consumes.bind fun x i us hx =>
        .bind (consumes_many (consumes_commaThen comma_consumes ident_consumes)) fun xs vs hxs =>
          .pure ⟨by simp, append_intro hx (by rwa [List.map_map])⟩
    · rw [genericsSpelled, if_neg (by simpa using hxs.1)]
      exact append_intro (append_intro hl hxs.2) hr
  refine (consumes_optional hlist).map fun xs i ts h => ?_
  cases xs with
  | none => exact h
  | some xs => exact h.2

theorem param_consumes : Consumes param Param.spelled :=
  ident_consumes.bind fun _ _ _ hx => .bind (consumes_optional ascription_consumes) fun _ _ ht =>
    .pure (append_intro hx ht)

theorem params_consumes : Consumes params paramsSpelled :=
  parens_consumes (consumes_separatedTrailing comma_consumes param_consumes)

theorem effect_consumes : Consumes effect fun x => spanning x.2 (word (Effect.print x.1)) := by
  refine consumes_token fun t i x h => ?_
  split at h <;> cases h <;> exact ⟨rfl, rfl⟩

theorem variant_consumes : Consumes variant Variant.spelled :=
  consumes_spanned (effect_consumes.bind fun _ _ _ he => .bind block_consumes fun _ _ hb =>
    .pure ⟨rfl, append_intro he hb⟩)

theorem funBody_consumes : Consumes funBody Body.spelled :=
  Consumes.orElse
    ((braces_consumes (consumes_many1 variant_consumes)).map (g := Body.bundle) fun _ _ _ h => h)
    (block_consumes.map (g := Body.block) fun _ _ _ h => h)

def SpelledWhole (f : Span → Decl) : Spelling := fun i ts => (f ⟨i, i + ts.length⟩).spelled i ts

theorem functionName_consumes : Consumes (orElse ident anyOperator) Name.spelledFunction := by
  refine (ident_consumes.mono ?_).orElse (anyOperator_consumes.mono ?_)
  · rintro x i ts ⟨hspan, hts⟩
    exact ⟨hspan, .inl hts⟩
  · rintro x i ts ⟨hspan, hts⟩
    exact ⟨hspan, .inr hts⟩

theorem output_consumes : Consumes (do punct .arrow; typeExpr) outputSpelled :=
  (punct_consumes .arrow).bind fun _ _ _ harrow => .last typeExpr_consumes fun _ _ ht =>
    append_intro harrow ht

theorem function_consumes : Consumes function SpelledWhole :=
  (keyword_consumes .kwFun).bind fun _ _ _ hk => .bind functionName_consumes fun _ _ hx =>
    .bind generics_consumes fun _ _ hgs => .bind params_consumes fun _ _ hps =>
      .bind (consumes_optional output_consumes) fun _ _ ht =>
        .bind (consumes_optional funBody_consumes) fun _ _ hb => .pure ⟨rfl,
          append_intro (append_intro (append_intro (append_intro (append_intro hk hx) hgs) hps) ht)
            hb⟩

theorem initializer_consumes : Consumes initializer SpelledWhole :=
  (keyword_consumes .kwInit).bind fun _ _ _ hk => .bind params_consumes fun _ _ hps =>
    .bind (consumes_optional block_consumes) fun _ _ hb =>
      .pure ⟨rfl, append_intro (append_intro hk hps) hb⟩

theorem subscript_consumes : Consumes subscript SpelledWhole :=
  (keyword_consumes .kwSubscript).bind fun _ _ _ hk =>
    .bind (consumes_optional ident_consumes) fun _ _ hx => .bind params_consumes fun _ _ hps =>
      .bind ascription_consumes fun _ _ ht => .bind (consumes_optional block_consumes) fun _ _ hb =>
        .pure ⟨rfl, append_intro (append_intro (append_intro (append_intro hk hx) hps) ht) hb⟩

theorem associatedType_consumes : Consumes associatedType SpelledWhole :=
  (keyword_consumes .kwType).bind fun _ _ _ hk => .bind ident_consumes fun _ _ hx =>
    .pure ⟨rfl, append_intro hk hx⟩

theorem requirement_consumes : Consumes requirement Decl.spelled := by
  refine consumes_spanned (consumes_choice ?_)
  simp only [List.mem_cons, List.not_mem_nil, or_false, forall_eq_or_imp, forall_eq]
  exact ⟨associatedType_consumes, function_consumes, initializer_consumes, subscript_consumes⟩

theorem typealias_consumes : Consumes typealias SpelledWhole :=
  (keyword_consumes .kwTypealias).bind fun _ _ _ hk => .bind ident_consumes fun _ _ hx =>
    .bind (punct_consumes .assign) fun _ _ ha => .bind typeExpr_consumes fun _ _ ht =>
      .pure ⟨rfl, append_intro (append_intro (append_intro hk hx) ha) ht⟩

theorem fixity_consumes : Consumes fixity fun x => spanning x.2 (word (Fixity.print x.1)) := by
  intro c r a c' r' h
  rw [fixity] at h
  split at h
  · next x c₁ r₁ hx =>
      obtain ⟨ts, hrest, hpos, hspan, hts⟩ := ident_consumes c r x c₁ r₁ hx
      split at h
      · next f hf =>
          cases h
          refine ⟨ts, hrest, hpos, hspan, ?_⟩
          have hword : Fixity.print f = .ident x.text := by
            unfold Fixity.ofWord at hf
            split at hf <;> cases hf <;> simp_all [Fixity.print]
          rwa [hword]
      · cases h
  · cases h

theorem operator_consumes : Consumes operator SpelledWhole :=
  (keyword_consumes .kwOperator).bind fun _ _ _ hk => .bind fixity_consumes fun _ _ hf =>
    .bind anyOperator_consumes fun _ _ hx => .pure ⟨rfl, append_intro (append_intro hk hf) hx⟩

section Members

variable {inner : Parser Decl} {members : Parser (List Decl)}

theorem members_consumes (hinner : Consumes inner Decl.spelled) :
    Consumes (braces (many (terminated inner))) fun ms => (items (Decl.spellings ms)).inBraces := by
  refine (braces_consumes (items_consumes hinner)).mono fun ms i ts h => ?_
  rwa [Decl.spellings_eq_map]

theorem trait_consumes : Consumes trait SpelledWhole :=
  (keyword_consumes .kwTrait).bind fun _ _ _ hk => .bind ident_consumes fun _ _ hx =>
    .bind (members_consumes requirement_consumes) fun _ _ hms =>
      .pure ⟨rfl, append_intro (append_intro hk hx) hms⟩

variable (hmembers : Consumes members fun ms => (items (Decl.spellings ms)).inBraces)

include hmembers

theorem space_consumes : Consumes (space members) SpelledWhole :=
  (keyword_consumes .kwNamespace).bind fun _ _ _ hk => .bind ident_consumes fun _ _ hx =>
    .bind hmembers fun _ _ hms => .pure ⟨rfl, append_intro (append_intro hk hx) hms⟩

theorem product_consumes : Consumes (product members) SpelledWhole :=
  (keyword_consumes .kwType).bind fun _ _ _ hk => .bind ident_consumes fun _ _ hx =>
    .bind generics_consumes fun _ _ hgs => .bind hmembers fun _ _ hms =>
      .pure ⟨rfl, append_intro (append_intro (append_intro hk hx) hgs) hms⟩

theorem extension_consumes : Consumes (extension members) SpelledWhole :=
  (keyword_consumes .kwExtension).bind fun _ _ _ hk => .bind typeExpr_consumes fun _ _ ht =>
    .bind hmembers fun _ _ hms => .pure ⟨rfl, append_intro (append_intro hk ht) hms⟩

theorem conformance_consumes : Consumes (conformance members) SpelledWhole :=
  (keyword_consumes .kwConformance).bind fun _ _ _ hk => .bind typeExpr_consumes fun _ _ ht =>
    .bind (punct_consumes .colon) fun _ _ hc =>
      .bind (consumes_separated1 comma_consumes typeExpr_consumes) fun _ _ hts =>
        .bind hmembers fun _ _ hms => .pure ⟨rfl,
          append_intro (append_intro (append_intro (append_intro hk ht) hc) hts) hms⟩

end Members

theorem declAt_consumes (n : Nat) : Consumes (declAt n) Decl.spelled := by
  induction n with
  | zero => exact consumes_fail
  | succ n ih =>
      have hmembers := members_consumes ih
      refine consumes_spanned (consumes_choice ?_)
      simp only [List.mem_cons, List.not_mem_nil, or_false, forall_eq_or_imp, forall_eq]
      refine ⟨space_consumes hmembers, product_consumes hmembers, extension_consumes hmembers,
        conformance_consumes hmembers, trait_consumes, typealias_consumes, operator_consumes,
        function_consumes, initializer_consumes, subscript_consumes, ?_⟩
      exact binding_consumes.map fun b i ts h => ⟨rfl, h⟩

theorem decl_consumes : Consumes decl Decl.spelled :=
  fun c r a c' r' h => declAt_consumes _ c r a c' r' h

theorem file_consumes : Consumes file fileSpelled := by
  have hend : Consumes finished fun _ => nothing := by
    intro c r a c' r' h
    rw [finished] at h
    split at h
    · next hrest =>
        cases h
        exact ⟨[], by simp [hrest], rfl, rfl⟩
    · cases h
  refine (items_consumes decl_consumes).bind fun ds i us hds => .bind hend fun _ vs hvs => .pure ?_
  obtain rfl : vs = [] := hvs
  rwa [List.append_nil]

theorem finished_of_file {c c' : Cursor} {r r' : Refusal} {ds : List Decl}
    (h : file c r = (some (ds, c'), r')) : c'.rest = [] := by
  rw [file, bind_apply] at h
  split at h
  · next ds₁ c₁ r₁ _ =>
      rw [bind_apply, finished] at h
      cases hrest : c₁.rest with
      | nil =>
          simp only [hrest] at h
          cases h
          exact hrest
      | cons t ts => simp only [hrest] at h; cases h
  · cases h

theorem parse_spelled {ts : List Token} {ds : List Decl} (h : parse ts = .ok ds) :
    fileSpelled ds 0 ts := by
  rw [parse] at h
  split at h
  · next ds' c' r' hfile =>
      cases h
      obtain ⟨us, hus, -, hspelled⟩ := file_consumes _ _ _ _ _ hfile
      rw [finished_of_file hfile, List.append_nil] at hus
      obtain rfl : ts = us := hus
      exact hspelled
  · cases h

end LanguageService.Surface
