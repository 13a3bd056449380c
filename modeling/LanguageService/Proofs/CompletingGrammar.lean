import LanguageService.Proofs.Completing
import LanguageService.Proofs.PrintedDecl

namespace LanguageService.Surface

open Surface.Parser

variable {L : Nat}

theorem punct_viable (x : Punct) : Viable L anything [.punct x] (punct x) :=
  viable_token (fun _ => ⟨(), by simp⟩) (by simp)

theorem comma_viable : Viable L anything [.punct .comma] comma := punct_viable .comma

theorem keyword_viable (k : Keyword) (hk : k ≠ .kwOperator) :
    Viable L anything [.keyword k] (keyword k) :=
  viable_token (fun s => ⟨s, by simp⟩) (by simp [hk.symm])

theorem ident_viable : Viable L anything [.ident "x"] ident :=
  viable_token (fun s => ⟨⟨"x", s⟩, rfl⟩) fun _ => rfl

theorem selfName_viable : Viable L anything [.keyword .kwSelf] selfName :=
  viable_token (fun s => ⟨⟨"self", s⟩, rfl⟩) fun _ => rfl

theorem anyOperator_viable : Viable L anything [.op "+"] anyOperator :=
  viable_token (fun s => ⟨⟨"+", s⟩, rfl⟩) fun _ => rfl

theorem operatorIn_viable (ops : List String) {x : String} (hx : ops.contains x = true) :
    Viable L anything [.op x] (operatorIn ops) :=
  viable_token (fun s => ⟨⟨x, s⟩, by simp only [hx, if_true]⟩) fun _ => rfl

theorem introducer_viable : Viable L anything [.keyword .kwLet] introducer :=
  viable_token (fun s => ⟨(.byLet, s), rfl⟩) fun _ => rfl

theorem effect_viable : Viable L anything [.keyword .kwLet] effect :=
  viable_token (fun s => ⟨(.onLet, s), rfl⟩) fun _ => rfl

theorem literal_viable : Viable L anything [.int "0"] literal :=
  viable_token (fun _ => ⟨.int "0", rfl⟩) fun _ => rfl

section Lists

variable {α : Type} {p : Parser α} {F : List Token → Prop} {us : List Token}

theorem list_viable (left right : Punct) (hp : Viable L F us p) (ht : Takes 0 p)
    (hF : ∀ after, F (.punct right :: after)) (hright : right ≠ .comma) :
    Viable (L + 1) anything ([.punct left] ++ (us ++ [.punct right]))
      (between (punct left) (punct right) (separatedTrailing p comma)) := by
  have hlist : Viable L (fun after => F after ∧ ∀ t ∈ after.head?, t ≠ .punct .comma) us
      (separatedTrailing p comma) :=
    .separatedTrailing comma_viable comma_takes (hp.mono fun _ h => h.1) ht
      fun _ h => refuses_punct h.2
  exact .between (punct_viable left) (punct_takes left) hlist (punct_viable right)
    fun after => ⟨hF after, by simpa using hright⟩

theorem terminated_viable (hp : Viable L F us p) (hF : ∀ after, F (.punct .semi :: after)) :
    Viable L anything (us ++ [.punct .semi]) (terminated p) :=
  hp.bind (fun _ => (punct_viable .semi).optional.map) fun after _ => hF after

theorem items_viable (hp : Viable L F us p) (ht : Takes 1 p)
    (hF : ∀ after, F (.punct .semi :: after))
    (hclose : ∀ after, Refuses p (.punct .rbrace :: after)) :
    Viable (L + 1) anything [.punct .lbrace, .punct .rbrace] (braces (many (terminated p))) := by
  have hmany : Viable L (Refuses p) [] (many (terminated p)) :=
    (terminated_viable hp hF).toGuided.many (terminated_takes ht) fun _ h => ⟨trivial, h.bind⟩
  exact .between (punct_viable .lbrace) (punct_takes .lbrace) hmany (punct_viable .rbrace) hclose

end Lists

theorem viable_of_step {α : Type} {p : Parser α} {F : List Token → Prop} {us : List Token}
    (hreads : ∀ after, F after → Reads p us (fun _ => True) after)
    (hstep : ∀ L, Viable L F us p → Guided (L + 1) F p) : Viable L F us p := by
  refine ⟨?_, hreads⟩
  induction L with
  | zero => exact guided_zero
  | succ L ih => exact hstep L ⟨ih, hreads⟩

theorem typeExpr_viable : Viable L anything [.ident "x"] typeExpr := by
  refine viable_of_step (fun after _ => ?_) fun L h => ?_
  · exact (typeExpr_reads (.name ⟨0, 0⟩ ⟨"x", ⟨0, 0⟩⟩)).mono fun _ _ => trivial
  · have htuple := list_viable .lparen .rparen h typeExpr_consumes.takes
      (fun _ => trivial) (by simp)
    rw [typeExpr_eq]
    exact .spanned (.orElse ident_viable.map.toGuided (.orElse htuple.map.toGuided guided_fail))

theorem pattern_viable : Viable L anything [.ident "x"] pattern := by
  refine viable_of_step (fun after _ => ?_) fun L h => ?_
  · exact (pattern_reads (.name ⟨0, 0⟩ ⟨"x", ⟨0, 0⟩⟩)).mono fun _ _ => trivial
  · have htuple := list_viable .lparen .rparen h pattern_consumes.takes
      (fun _ => trivial) (by simp)
    have hwildcard := keyword_viable (L := L + 1) .kwUnderscore (by simp)
    rw [pattern_eq]
    exact .spanned (.orElse ident_viable.map.toGuided
      (.orElse hwildcard.map.toGuided (.orElse htuple.map.toGuided guided_fail)))

section Expressions

def EndsExpr : List Token → Prop := Follows precedence.length

theorem endsExpr_cons {t : Token} (h : grip t = precedence.length + 1) (after : List Token) :
    EndsExpr (t :: after) := follows_cons h after

variable (h : Viable L EndsExpr [.int "0"] expr)

include h

theorem atom_viable : Viable (L + 1) anything [.int "0"] (atomIn expr) := by
  have hvalue := (ident_viable (L := L + 1)).orElse selfName_viable.toGuided
  have htuple := list_viable .lparen .rparen h expr_consumes.takes
    (endsExpr_cons rfl) (by simp)
  exact .spanned (.orElse literal_viable.map
    (.orElse hvalue.map.toGuided (.orElse htuple.map.toGuided guided_fail)))

theorem arg_viable :
    Viable L EndsExpr ([.ident "x", .punct .colon] ++ [.int "0"]) (argIn expr) := by
  have hlabel := ident_viable (L := L) |>.next fun x => (punct_viable .colon).map (k := fun _ => x)
  exact hlabel.optional.next fun _ => h.map

theorem trailer_guided : Guided (L + 1) anything (trailerIn expr) := by
  have hargs {left right : Punct} (hright : grip (.punct right) = precedence.length + 1)
      (hcomma : right ≠ .comma) := list_viable left right (arg_viable h)
    (argIn_takes expr_consumes.takes) (endsExpr_cons hright) hcomma
  exact .spanned (.orElse (.map (hargs rfl (by simp)).toGuided)
    (.orElse (.map (hargs rfl (by simp)).toGuided)
      (.orElse (.next (punct_viable .dot) fun _ => ident_viable.map) guided_fail)))

theorem operand_viable : Viable (L + 1) (Follows 0) [.int "0"] (operandIn expr) := by
  have htrailers : Viable (L + 1) (Follows 0) [] (many (trailerIn expr)) :=
    (trailer_guided h).many (trailerIn_takes expr_consumes.takes)
      fun _ hafter => ⟨trivial, trailerIn_refuses hafter⟩
  exact (atom_viable h).next fun _ => htrailers.map

omit h in
theorem operatorIn_refuses {k : Nat} (hk : k < precedence.length) {after : List Token}
    (hafter : Follows (k + 1) after) : Refuses (operatorIn precedence[k]) after := by
  refine refuses_operatorIn fun t ht x hx => ?_
  have hgrip := hafter t ht
  rw [hx, grip] at hgrip
  rw [← Bool.not_eq_true, contains_iff_level hk]
  omega

omit h in
theorem contains_headD {ops : List String} (hops : ops ∈ precedence) :
    ops.contains (ops.headD "") = true := by
  have hall : (precedence.all fun ops => ops.contains (ops.headD "")) = true := by decide
  exact List.all_eq_true.mp hall ops hops

theorem level_viable (k : Nat) (hk : k ≤ precedence.length) :
    Viable (L + 1) (Follows k) [.int "0"] (levelParser expr k) := by
  induction k with
  | zero => exact operand_viable h
  | succ k ih =>
      have hoperand := ih (Nat.le_of_lt hk)
      have htakes := levelParser_takes expr_consumes.takes k (Nat.le_of_lt hk)
      have hoperator := operatorIn_viable (L := L + 1) _ (contains_headD (List.getElem_mem hk))
      have hoperation := hoperator.next fun op => hoperand.map (k := (op, ·))
      have hoperations : Viable (L + 1) (Follows (k + 1)) [] _ :=
        hoperation.toGuided.many (operation_takes _ htakes) fun _ hafter =>
          ⟨hafter.le (Nat.le_succ k), (operatorIn_refuses hk hafter).bind⟩
      rw [levelParser_succ expr hk]
      exact hoperand.bind (fun _ => hoperations.map) fun _ hafter => hafter.le (Nat.le_succ k)

end Expressions

theorem expr_viable : Viable L EndsExpr [.int "0"] expr := by
  refine viable_of_step (fun after hafter => ?_) fun L h => ?_
  · exact (expr_reads (.literal ⟨0, 0⟩ (.int "0")) rfl hafter).mono fun _ _ => trivial
  · rw [expr_eq, exprIn_eq]
    exact (level_viable h _ (Nat.le_refl _)).toGuided

theorem ascription_viable : Viable L anything [.punct .colon, .ident "x"] ascription :=
  (punct_viable .colon).next fun _ => typeExpr_viable

theorem assigned_viable : Viable L EndsExpr [.punct .assign, .int "0"] assigned :=
  (punct_viable .assign).next fun _ => expr_viable

theorem binding_guided : Guided L EndsExpr binding :=
  .next introducer_viable fun _ => .next pattern_viable fun _ =>
    .next ascription_viable.optional fun _ => .map assigned_viable.optional

section Statements

def emptyBlock : List Token := [.punct .lbrace, .punct .rbrace]

variable {block : Parser Stmt}

theorem conditional_guided (hblock : Viable L anything emptyBlock block) (ht : Takes 0 block) :
    Guided L anything (conditional block) := by
  induction L with
  | zero => exact guided_zero
  | succ L ih =>
      have hblock := hblock.fewer (Nat.le_succ L)
      have helse := (keyword_viable (L := L) .kwElse (by simp)).next fun k =>
        (hblock.orElse (ih hblock)).map (k := (k, ·))
      rw [conditional_eq ht]
      exact .spanned (.after (keyword_viable .kwIf (by simp)).toGuided (keyword_takes _)
        (fun _ => .bind expr_viable (fun _ => .next hblock fun _ => .map helse.optional)
          fun _ _ => endsExpr_cons rfl _) fun _ _ => trivial)

theorem simpleStmt_guided (hblock : Viable L anything emptyBlock block) :
    Guided L EndsExpr (simpleStmt block) := by
  refine .spanned (.orElse ?_ (.orElse ?_ (.orElse ?_ (.orElse ?_ guided_fail))))
  · exact .next (keyword_viable _ (by simp)) fun _ => .map expr_viable.optional
  · exact .next (keyword_viable _ (by simp)) fun _ => .bind expr_viable
      (fun _ => .map (hblock.mono fun _ _ => trivial)) fun _ _ => endsExpr_cons rfl _
  · exact binding_guided.map
  · refine .bind expr_viable.toGuided (fun _ => .last assigned_viable.optional fun rhs => ?_)
      fun _ _ => endsExpr_cons rfl _
    cases rhs <;> exact viable_pure

theorem stmt_refuses (after : List Token) : Refuses stmt (.punct .rbrace :: after) :=
  fun pos r => stmtAt_refuses _ pos r

theorem blockOf_viable (h : Viable L EndsExpr emptyBlock stmt) :
    Viable (L + 1) anything emptyBlock (blockOf stmt) :=
  .spanned (items_viable h stmt_takes (endsExpr_cons rfl) stmt_refuses).map

theorem stmt_viable : Viable L EndsExpr emptyBlock stmt := by
  refine viable_of_step (fun after _ => ?_) fun L h => ?_
  · rw [stmt_eq]
    exact ((blockOf_reads [] ⟨0, 0⟩ stmt_refuses (by simp)).mono fun _ _ => trivial).orElse
  · have hblock := blockOf_viable h
    have htakes : Takes 0 (blockOf stmt) := (blockOf_takes stmt_takes).mono (Nat.zero_le 1)
    have hcond := (conditional_guided hblock htakes).mono (F := EndsExpr) fun _ _ => trivial
    rw [stmt_eq]
    exact .orElse (hblock.mono fun _ _ => trivial).toGuided
      (.orElse hcond (.orElse (simpleStmt_guided hblock) guided_fail))

end Statements

theorem block_viable : Viable L anything emptyBlock block :=
  (blockOf_viable stmt_viable).fewer (Nat.le_succ L)

theorem generics_viable : Viable L anything [.op "<", .ident "x", .op ">"] generics := by
  have hnames : Viable L (fun after => ∀ t ∈ after.head?, t ≠ .punct .comma) [.ident "x"]
      (separated1 ident comma) :=
    .separated1 comma_viable comma_takes (ident_viable.mono fun _ _ => trivial)
      (ident_takes.mono (Nat.zero_le 1)) fun _ h => refuses_punct h
  have hlist := (operatorIn_viable (L := L) ["<"] (x := "<") rfl).next fun _ =>
    hnames.bind (fun xs => (operatorIn_viable [">"] (x := ">") rfl).map (k := fun _ => xs))
      fun _ _ => by simp
  exact hlist.optional.map

theorem param_viable : Viable L anything [.ident "x", .punct .colon, .ident "x"] param :=
  .next ident_viable fun _ => .map ascription_viable.optional

theorem params_viable : Viable L anything
    [.punct .lparen, .ident "x", .punct .colon, .ident "x", .punct .rparen] params :=
  (list_viable .lparen .rparen param_viable param_consumes.takes (fun _ => trivial) (by simp)).fewer
    (Nat.le_succ L)

theorem variant_viable : Viable L anything (.keyword .kwLet :: emptyBlock) variant :=
  .spanned (.next effect_viable fun _ => .map block_viable)

theorem variant_takes : Takes 1 variant :=
  .spanned (.then takes_token fun _ => .map block_consumes.takes)

def emptyBundle : List Token :=
  [.punct .lbrace, .keyword .kwLet, .punct .lbrace, .punct .rbrace, .punct .rbrace]

theorem bundle_viable : Viable L anything emptyBundle (braces (many1 variant)) := by
  have hrefuses (after : List Token) : Refuses variant (.punct .rbrace :: after) :=
    refuses_spanned (Refuses.bind (refuses_token (by simp)))
  have hvariants : Viable L (Refuses variant) (.keyword .kwLet :: emptyBlock) (many1 variant) :=
    variant_viable.many1 variant_takes fun _ h => ⟨trivial, h⟩
  exact (Viable.between (punct_viable _) (punct_takes _) hvariants (punct_viable _)
    hrefuses).fewer (Nat.le_succ L)

theorem funBody_viable : Viable L anything emptyBundle funBody :=
  .orElse bundle_viable.map block_viable.map.toGuided

theorem function_guided : Guided L anything function := by
  have hname := (ident_viable (L := L)).orElse anyOperator_viable.toGuided
  have houtput := (punct_viable (L := L) .arrow).next fun _ => typeExpr_viable
  exact .next (keyword_viable _ (by simp)) fun _ => .next hname fun _ => .next generics_viable
    fun _ => .next params_viable fun _ => .next houtput.optional fun _ =>
      .map funBody_viable.optional

theorem initializer_guided : Guided L anything initializer :=
  .next (keyword_viable _ (by simp)) fun _ => .next params_viable fun _ =>
    .map block_viable.optional

theorem subscript_guided : Guided L anything subscript :=
  .next (keyword_viable _ (by simp)) fun _ => .next ident_viable.optional fun _ =>
    .next params_viable fun _ => .next ascription_viable fun _ => .map block_viable.optional

theorem associatedType_viable :
    Viable L anything [.keyword .kwType, .ident "x"] associatedType :=
  .next (keyword_viable _ (by simp)) fun _ => .map ident_viable

theorem requirement_viable : Viable L anything [.keyword .kwType, .ident "x"] requirement :=
  .spanned (.orElse associatedType_viable (.orElse function_guided
    (.orElse initializer_guided (.orElse subscript_guided guided_fail))))

theorem typealias_guided : Guided L anything typealias :=
  .next (keyword_viable _ (by simp)) fun _ => .next ident_viable fun _ =>
    .next (punct_viable _) fun _ => .map typeExpr_viable

theorem requirements_viable :
    Viable L anything emptyBlock (braces (many (terminated requirement))) :=
  (items_viable requirement_viable (decl_takes_of_consumes requirement_consumes)
    (fun _ => trivial) fun _ => requirement_refuses).fewer (Nat.le_succ L)

theorem trait_guided : Guided L anything trait :=
  .next (keyword_viable _ (by simp)) fun _ => .next ident_viable fun _ =>
    .map requirements_viable

section Members

variable {members : Parser (List Decl)} (h : Viable L anything emptyBlock members)

include h

theorem space_guided : Guided L anything (space members) :=
  .next (keyword_viable _ (by simp)) fun _ => .next ident_viable fun _ => .map h

theorem product_guided : Guided L anything (product members) :=
  .next (keyword_viable _ (by simp)) fun _ => .next ident_viable fun _ =>
    .next generics_viable fun _ => .map h

theorem extension_guided : Guided L anything (extension members) :=
  .next (keyword_viable _ (by simp)) fun _ => .next typeExpr_viable fun _ => .map h

theorem conformance_guided : Guided L anything (conformance members) := by
  have htraits : Viable L (fun after => ∀ t ∈ after.head?, t ≠ .punct .comma) [.ident "x"]
      (separated1 typeExpr comma) :=
    .separated1 comma_viable comma_takes (typeExpr_viable.mono fun _ _ => trivial)
      typeExpr_consumes.takes fun _ h => refuses_punct h
  exact .next (keyword_viable _ (by simp)) fun _ => .next typeExpr_viable fun _ =>
    .next (punct_viable _) fun _ => .bind htraits (fun _ => .map h) fun _ _ => by simp [emptyBlock]

end Members

def announced : Parser (Span × Fixity × Span) := do
  let k ← keyword .kwOperator
  let f ← fixity
  return (k, f)

theorem operator_eq : operator = announced >>= fun (k, f, fs) =>
    anyOperator >>= fun x => pure fun s => .operator s k f fs x := by
  funext c r
  simp only [operator, announced, bind_apply]
  cases keyword .kwOperator c r with
  | mk o r₁ =>
      cases o with
      | none => rfl
      | some x =>
          dsimp only
          cases fixity x.2 r₁ with
          | mk o r₂ => cases o <;> rfl

section Announced

variable {t : Token} {x : String} {f : Fixity} {rest : List Token} {pos : Nat} {r : Refusal}

theorem announced_nil : announced ⟨[], pos⟩ r = (none, r.offer ⟨pos, ⟨pos, pos⟩⟩) := rfl

theorem announced_operator : announced ⟨[.keyword .kwOperator], pos⟩ r =
    (none, r.offer ⟨pos + 1, ⟨pos + 1, pos + 1⟩⟩) := rfl

theorem announced_other (h : t ≠ .keyword .kwOperator) :
    announced ⟨t :: rest, pos⟩ r = (none, r.offer ⟨pos + 1, ⟨pos, pos + 1⟩⟩) := by
  simp [announced, bind_apply, keyword, token, h]

theorem announced_word (h : Fixity.ofWord x = some f) :
    announced ⟨.keyword .kwOperator :: .ident x :: rest, pos⟩ r =
      (some ((⟨pos, pos + 1⟩, f, ⟨pos + 1, pos + 1 + 1⟩), ⟨rest, pos + 1 + 1⟩), r) := by
  simp [announced, bind_apply, keyword, token, fixity, ident, h]
  rfl

theorem announced_name (h : Fixity.ofWord x = none) :
    announced ⟨.keyword .kwOperator :: .ident x :: rest, pos⟩ r =
      (none, ⟨pos + 1, ⟨pos + 1, pos + 1 + 1⟩⟩) := by
  simp [announced, bind_apply, keyword, token, fixity, ident, h]

theorem announced_mark (h : ∀ x, t ≠ .ident x) :
    announced ⟨.keyword .kwOperator :: t :: rest, pos⟩ r =
      (none, r.offer ⟨pos + 1 + 1, ⟨pos + 1, pos + 1 + 1⟩⟩) := by
  cases t with
  | ident x => exact absurd rfl (h x)
  | _ => rfl

end Announced

inductive Announcing : List Token → Prop where
  | nil : Announcing []
  | operator : Announcing [.keyword .kwOperator]
  | other {t rest} : t ≠ .keyword .kwOperator → Announcing (t :: rest)
  | word {x f rest} : Fixity.ofWord x = some f →
      Announcing (.keyword .kwOperator :: .ident x :: rest)
  | name {x rest} : Fixity.ofWord x = none →
      Announcing (.keyword .kwOperator :: .ident x :: rest)
  | mark {t rest} : (∀ x, t ≠ .ident x) → Announcing (.keyword .kwOperator :: t :: rest)

theorem announcing (ts : List Token) : Announcing ts := by
  match ts with
  | [] => exact .nil
  | t :: ts =>
      by_cases ht : t = .keyword .kwOperator
      · subst ht
        match ts with
        | [] => exact .operator
        | u :: ts =>
            by_cases hu : ∃ x, u = .ident x
            · obtain ⟨x, rfl⟩ := hu
              cases h : Fixity.ofWord x with
              | none => exact .name h
              | some f => exact .word h
            · exact .mark fun x hx => hu ⟨x, hx⟩
      · exact .other ht

theorem announced_leads (c : Cursor) (r : Refusal) : Refusal.Leads c r (announced c r).2 := by
  obtain ⟨ts, pos⟩ := c
  cases announcing ts with
  | nil =>
      rw [announced_nil]
      exact .offer ⟨Nat.le_refl _, Nat.le_refl _, fun _ => .inl rfl⟩
  | operator =>
      rw [announced_operator]
      exact .offer ⟨Nat.le_refl _, Nat.le_refl _, fun _ => .inl rfl⟩
  | @other t rest ht =>
      rw [announced_other ht]
      refine .offer ⟨?_, ?_, fun h => .inr ⟨h, h⟩⟩ <;>
        simp only [Cursor.stop, List.length_cons] <;> omega
  | word hx =>
      rw [announced_word hx]
      exact .refl _ r
  | name hx =>
      rw [announced_name hx]
      refine ⟨fun horderly => ?_, fun _ => ⟨?_, ?_, fun h => ?_⟩⟩
      · obtain ⟨hadmits, -⟩ := List.isChain_cons_cons.mp horderly
        simp [Admits, saysFixity, hx] at hadmits
      all_goals
        simp only [Cursor.stop, List.length_cons] at *
        omega
  | mark ht =>
      rw [announced_mark ht]
      refine .offer ⟨?_, ?_, fun h => .inr ⟨h, h⟩⟩ <;>
        simp only [Cursor.stop, List.length_cons] <;> omega

theorem announced_steady (c : Cursor) : Stays announced c ∨ Completes anything announced c := by
  obtain ⟨ts, pos⟩ := c
  cases announcing ts with
  | nil =>
      exact .inr ⟨[.keyword .kwOperator, .ident "infix"], fun after _ r =>
        ⟨_, r, announced_word rfl⟩, fun r _ => r.new_pos_le_offer ⟨pos, ⟨pos, pos⟩⟩⟩
  | operator =>
      exact .inr ⟨[.ident "infix"], fun after _ r => ⟨_, r, announced_word rfl⟩,
        fun r _ => r.new_pos_le_offer ⟨pos + 1, ⟨pos + 1, pos + 1⟩⟩⟩
  | other ht =>
      refine .inl ⟨none, fun post r => ⟨_, announced_other ht, r.offer_blames ?_⟩⟩
      simp only [Cursor.stop, List.length_cons]
      omega
  | @word x f rest hx =>
      exact .inl ⟨some (_, ⟨rest, pos + 1 + 1⟩), fun post r => ⟨r, announced_word hx, .inl rfl⟩⟩
  | name hx =>
      refine .inl ⟨none, fun post r => ⟨_, announced_name hx, .inr ?_⟩⟩
      simp only [Cursor.stop, List.length_cons]
      omega
  | mark ht =>
      refine .inl ⟨none, fun post r => ⟨_, announced_mark ht, r.offer_blames ?_⟩⟩
      simp only [Cursor.stop, List.length_cons]
      omega

theorem announced_viable :
    Viable L anything [.keyword .kwOperator, .ident "infix"] announced where
  reaches := fun ⟨ts, pos⟩ r a c' r' _ h => by
    cases announcing ts with
    | nil => rw [announced_nil] at h; cases h
    | operator => rw [announced_operator] at h; cases h
    | other ht => rw [announced_other ht] at h; cases h
    | name hx => rw [announced_name hx] at h; cases h
    | mark ht => rw [announced_mark ht] at h; cases h
    | @word x f rest hx =>
        rw [announced_word hx] at h
        cases h
        refine ⟨[.keyword .kwOperator, .ident x], rfl, rfl, ?_, by simp⟩
        exact .cons_cons (fun _ => by simp [saysFixity, hx]) (.singleton _)
  leads := fun c r _ => announced_leads c r
  steady := fun c _ => announced_steady c
  reads := fun after _ pos r => ⟨_, r, announced_word rfl, trivial⟩

theorem operator_guided : Guided L anything operator := by
  rw [operator_eq]
  exact .next announced_viable fun ⟨_, _, _⟩ => .map anyOperator_viable

def emptySpace : List Token := .keyword .kwNamespace :: .ident "x" :: emptyBlock

theorem decl_refuses {after : List Token} (h : ∀ t ∈ after.head?, ∀ k, t ≠ .keyword k) :
    Refuses decl after := fun pos r => declAt_refuses _ h pos r

theorem members_reads (after : List Token) :
    Reads (braces (many (terminated decl))) emptyBlock (fun _ => True) after := by
  have hmany : Reads (many (terminated decl)) [] (fun _ => True) (.punct .rbrace :: after) := by
    rw [many_eq (terminated_takes decl_takes)]
    exact Refuses.orElse (decl_refuses (by simp)).bind.bind (reads_pure trivial)
  exact reads_braces hmany

theorem space_reads_empty {members : Parser (List Decl)} {after : List Token}
    (h : Reads members emptyBlock (fun _ => True) after) :
    Reads (space members) emptySpace (fun _ => True) after :=
  (reads_keyword .kwNamespace).bind fun _ _ => (reads_ident ⟨"x", ⟨0, 0⟩⟩).bind fun _ _ =>
    h.map fun _ _ => trivial

theorem decl_viable : Viable L EndsExpr emptySpace decl := by
  refine viable_of_step (fun after _ => ?_) fun L h => ?_
  · rw [decl_eq]
    refine reads_spanned (.choice ?_)
    exact (space_reads_empty (members_reads after)).mono fun _ _ _ => trivial
  · have hmembers := items_viable h decl_takes (endsExpr_cons rfl) fun _ => decl_refuses (by simp)
    have hfree {p : Parser (Span → Decl)} (hp : Guided (L + 1) anything p) :
        Guided (L + 1) EndsExpr p := hp.mono fun _ _ => trivial
    rw [decl_eq]
    exact .spanned (.orElse (hfree (space_guided hmembers))
      (.orElse (hfree (product_guided hmembers)) (.orElse (hfree (extension_guided hmembers))
      (.orElse (hfree (conformance_guided hmembers)) (.orElse (hfree trait_guided)
      (.orElse (hfree typealias_guided) (.orElse (hfree operator_guided)
      (.orElse (hfree function_guided) (.orElse (hfree initializer_guided)
      (.orElse (hfree subscript_guided) (.orElse binding_guided.map guided_fail)))))))))))

theorem decls_viable : Viable L (Refuses decl) [] (many (terminated decl)) :=
  (terminated_viable decl_viable (endsExpr_cons rfl)).toGuided.many (terminated_takes decl_takes)
    fun _ h => ⟨trivial, h.bind⟩

end LanguageService.Surface
