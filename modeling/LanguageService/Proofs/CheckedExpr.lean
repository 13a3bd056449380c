import LanguageService.Proofs.CheckedTypes

namespace LanguageService.Check

variable {e : Env} {run : Run} {opened : NodeId → Prop} {s : State}

structure Judged (t : Tree) (opened : NodeId → Prop) (n : NodeId) (a : Ty) (s s₁ : State) :
    Prop where
  moves : Moves t opened (t.Below n) s s₁
  proper : a.proper t = true
  parts : ∀ c ∈ t.children n, Finished t c s₁
  rule : s₁.Clean → (State.program { s₁ with types := s₁.types.insert n a } t).Lawful n
  uncalled : s₁.Uncalled t n a

def Names (t : Tree) (n : NodeId) (a : Ty) (s : State) : Prop :=
  ∀ d, s.references.get? n = some (.direct d) ∨ s.references.get? n = some (.member d) →
    (t.kind d).isDeclaration = true ∧ (a = .error ∨ (s.program t).HasValue d a)

structure Named (t : Tree) (opened : NodeId → Prop) (n : NodeId) (a : Ty) (s s' : State) :
    Prop where
  moves : Moves t opened (· = n) s s'
  proper : a.proper t = true
  names : s'.Clean → Names t n a s'
  uncalled : ∀ i, s'.references.get? n ≠ some (.constructor i)

theorem Job.Ready.part {t : Tree} (ht : t.WellFormed) {n c : NodeId} {ctx : Context}
    (h : Job.Ready t opened s (.expr n ctx)) (hc : c ∈ t.children n) :
    Job.Ready t opened s (.expr c ctx) := by
  obtain ⟨hn, hctx, hopens, hblank, haround⟩ := h
  have hbelow := Tree.below_child hc
  exact ⟨Tree.isExpr_of_below ht hn hbelow, hctx, hopens.below ht hn hbelow,
    fun x hx => hblank x (hbelow.trans hx), haround.below hbelow⟩

theorem effect_setType {t : Tree} {n : NodeId} (hn : (t.kind n).isExpr = true) (s : State)
    (a : Ty) : Effect t (· = n) s { s with types := s.types.insert n a } := by
  refine .setType ?_ (fun _ => rfl) fun _ hne => absurd rfl hne
  intro old hd
  cases hk : t.kind n <;> simp [hk, Kind.isDeclaration, Kind.isExpr] at hd hn

theorem Names.lawful {t : Tree} {n : NodeId} {a : Ty} {domain : Option NodeId} {x : Name}
    (h : Names t n a s) (hk : t.kind n = .name domain x) :
    (State.program { s with types := s.types.insert n a } t).Lawful n := by
  refine Program.Accepts.lawful (.of_name (t := a) hk (by simp [State.program]) fun d href => ?_)
    (fun _ _ hcall => by cases hk.symm.trans hcall) fun _ _ hb => by cases hk.symm.trans hb
  obtain ⟨hd, hvalue⟩ := h d href
  refine ⟨hd, ?_⟩
  by_cases herror : a = .error
  · exact .inl herror
  · have heffect := effect_setType (t := t) (n := n) (by simp [hk, Kind.isExpr]) s a
    exact .inr ((hvalue.resolve_left herror).stable heffect.extends hd herror)

section Names

variable (ht : e.tree.WellFormed) (hds : e.decls.Sane e.tree) (hrun : Obeys e.tree run)
  {n : NodeId} (hn : (e.tree.kind n).isExpr = true)

include ht hrun hn

theorem refer_valueType_spec {d : NodeId} {r : Reference}
    (hr : r = .direct d ∨ r = .member d) (hpoints : (s.program e.tree).Points n r)
    (hd : (e.tree.kind d).isDeclaration = true) (htext : ¬ e.tree.IsImplied d)
    (hinv : Invariant e.tree opened s) (hopens : s.Opens e.tree opened n)
    (haround : s.ConcernsAround e.tree opened n) (hnone : s.references.get? n = none) :
    Ends (refer n r >>= fun _ => valueType e run d) s fun a s' =>
      Named e.tree opened n a s s' := by
  have hrefer := moves_refer ht hinv hpoints (by rcases hr with rfl | rfl <;> exact htext)
    (.insert_of_none hnone) fun _ => hopens
  have hmentions : e.tree.Mentions (s.references.insert n r) n d := by
    rcases hr with rfl | rfl
    · exact .direct (by simp)
    · exact .member (by simp)
  refine .bind (.modify (Q := fun _ s' => s' = _) rfl) ?_
  rintro - s₁ rfl
  refine (valueType_spec hrun hrefer.invariant hd
    ((haround.later hrefer).allNeed hn hmentions)).mono ?_
  rintro a s' ⟨hmoves, hproper, hvalue⟩
  have href : s'.references.get? n = some r := by
    rw [hmoves.effect.references n (.inl hn) id (hopens.guards.later hrefer.effect)]
    simp
  refine ⟨hrefer.trans hmoves.anywhere, hproper, fun hclean d' hd' => ?_, fun i => ?_⟩
  · obtain rfl : d' = d := by
      rcases hr with rfl | rfl <;> simpa [href, eq_comm] using hd'
    exact ⟨hd, hvalue hclean⟩
  · rcases hr with rfl | rfl <;> simp [href]

theorem lookupFrames_spec {x : Name} {domain : Option NodeId} {d : NodeId}
    (hk : e.tree.kind n = .name domain x) (hinv : Invariant e.tree opened s)
    (hopens : s.Opens e.tree opened n) (haround : s.ConcernsAround e.tree opened n)
    (hnone : s.references.get? n = none) (h : lookupFrames x.text s.frames = some d) :
    Ends (refer n (.direct d) >>= fun _ => run (.signature d)) s fun a s' =>
      Named e.tree opened n a s s' := by
  obtain ⟨f, hf, hfound⟩ := List.exists_of_findSome?_eq_some h
  obtain ⟨p, hp, rfl⟩ := Option.map_eq_some_iff.mp hfound
  obtain ⟨hlocal, hdeclared, htext⟩ := hinv.frames f hf p (List.mem_of_find?_eq_some hp)
  have hvalue : run (.signature p.2) = valueType e run p.2 := by
    cases hk : e.tree.kind p.2 <;>
      simp_all [valueType, Kind.isVar, Kind.isParameter]
  have hpoints : (s.program e.tree).Points n (.direct p.2) := by
    refine ⟨x.text, congrArg Kind.spelled hk, ?_⟩
    have hname := List.find?_some hp
    rw [← eq_of_beq hname]
    exact hdeclared
  rw [hvalue]
  exact refer_valueType_spec ht hrun hn (.inl rfl) hpoints
    (Kind.isDeclaration_of_declared hdeclared) htext hinv hopens haround hnone

omit ht hrun hn in
theorem complain_named {a : Ty} (site : Site) (c : Complaint) (ha : a.proper e.tree = true)
    (hinv : Invariant e.tree opened s) (hnone : s.references.get? n = none) :
    Ends (complain e site c >>= fun _ => pure a) s fun a s' => Named e.tree opened n a s s' := by
  refine (complain_spec e site c s).bind fun _ s' h => .pure ⟨h.1.moves hinv, ha,
    fun hclean => absurd hclean h.2, fun i => ?_⟩
  rw [h.1.same]
  simp [hnone]

omit ht hrun hn in
theorem Named.of_none {a : Ty} (ha : a.proper e.tree = true) (hinv : Invariant e.tree opened s)
    (h : s.references.get? n = none) : Named e.tree opened n a s s := by
  refine ⟨.refl hinv, ha, fun _ d href => ?_, fun i => ?_⟩
  · simp [h] at href
  · simp [h]

include hds

theorem unqualified_spec {ctx : Context} {x : Name} (hk : e.tree.kind n = .name none x)
    (hinv : Invariant e.tree opened s) (hctx : ctx.Plain e.tree) (hopens : s.Opens e.tree opened n)
    (haround : s.ConcernsAround e.tree opened n) (hnone : s.references.get? n = none) :
    Ends (unqualified e run n x ctx) s fun a s' => Named e.tree opened n a s s' := by
  have hspelled : (e.tree.kind n).spelled = some x.text := by rw [hk]; rfl
  have hbuiltin {a : Ty} (ha : a.proper e.tree = true)
      (hw : x.text ∈ builtinFunctions ∨ (Builtin.ofWord x.text).isSome = true) :
      Ends (refer n (.builtin x.text) >>= fun _ => pure a) s fun a s' =>
        Named e.tree opened n a s s' := by
    have hpoints : (s.program e.tree).Points n (.builtin x.text) := by
      refine ⟨hspelled, ?_⟩
      change (e.tree.kind n).Offers x.text
      rw [hk]
      exact hw
    refine .bind (.modify (Q := fun _ s' => s' = _) rfl) ?_
    rintro - s' rfl
    refine .pure ⟨moves_refer ht hinv hpoints trivial (.insert_of_none hnone) fun _ => hopens, ha,
      fun _ d href => ?_, ?_⟩
    · simp at href
    · simp
  rw [unqualified]
  split
  · split
    · next ty hself =>
        exact .pure (.of_none (Ty.proper_of_plain (hctx.selfType ty hself)) hinv hnone)
    · exact complain_named _ _ rfl hinv hnone
  · refine .get ?_
    split
    · next d hd => exact lookupFrames_spec ht hrun hn hk hinv hopens haround hnone hd
    · split
      · next d hd =>
          obtain ⟨hdeclared, hparameter⟩ := hds.lookup hd
          refine refer_valueType_spec ht hrun hn ?_ ?_ (Kind.isDeclaration_of_declared hdeclared)
            (Tree.not_isImplied ht hparameter) hinv hopens haround hnone
          · split <;> simp
          · split <;> exact ⟨x.text, hspelled, hdeclared⟩
      · split
        · next hfunction => exact hbuiltin rfl (.inl (by simpa using hfunction))
        · split
          · next b hb => exact hbuiltin rfl (.inr (by simp [hb]))
          · exact complain_named _ _ rfl hinv hnone

theorem qualified_spec (domain : Ty) {q : Option NodeId} {x : Name}
    (hk : e.tree.kind n = .name q x) (hinv : Invariant e.tree opened s)
    (hopens : s.Opens e.tree opened n) (haround : s.ConcernsAround e.tree opened n)
    (hnone : s.references.get? n = none) :
    Ends (qualified e run n domain x) s fun a s' => Named e.tree opened n a s s' := by
  have hspelled : (e.tree.kind n).spelled = some x.text := by rw [hk]; rfl
  have hfound {m : NodeId} {r : Reference} (hr : r = .direct m ∨ r = .member m)
      (hm : (e.tree.kind m).declared = some x.text ∧ (e.tree.kind m).isParameter = false) :
      Ends (refer n r >>= fun _ => valueType e run m) s fun a s' =>
        Named e.tree opened n a s s' := by
    refine refer_valueType_spec ht hrun hn hr ?_ (Kind.isDeclaration_of_declared hm.1)
      (Tree.not_isImplied ht hm.2) hinv hopens haround hnone
    rcases hr with rfl | rfl <;> exact ⟨x.text, hspelled, hm.1⟩
  have hmissing : Ends (noMember e domain x) s fun a s' => Named e.tree opened n a s s' :=
    complain_named _ _ rfl hinv hnone
  have hunknown : Ends (pure .error) s fun (a : Ty) s' => Named e.tree opened n a s s' :=
    .pure (.of_none rfl hinv hnone)
  unfold qualified
  split
  · exact hunknown
  · split
    · next m hm => exact hfound (.inl rfl) (hds.named (List.mem_of_head? hm))
    · exact hmissing
  · split
    · split
      · next m hm => exact hfound (.inr rfl) (hds.member hm)
      · exact hmissing
    · split
      · exact hunknown
      · exact hmissing

end Names

section Arguments

theorem checkEach_spec (l : List (NodeId × Ty × Ty)) (s : State) :
    Ends (checkEach e l) s fun _ s' =>
      Quiet s s' ∧ (s'.Clean → ∀ p ∈ l, p.2.1.compatible p.2.2 = true) := by
  induction l generalizing s with
  | nil => exact .pure ⟨.refl s, by simp⟩
  | cons p l ih =>
      obtain ⟨value, found, expected⟩ := p
      rw [checkEach]
      refine (expect_spec e expected found value s).bind ?_
      rintro - s₁ ⟨hquiet, hcompatible⟩
      refine (ih s₁).mono ?_
      rintro - s' ⟨hquiet', hrest⟩
      refine ⟨hquiet.trans hquiet', fun hclean => ?_⟩
      rintro q (_ | ⟨_, hq⟩)
      · exact hcompatible (hquiet'.clean hclean)
      · exact hrest hclean q hq

theorem arguments_spec (n : NodeId) {args : List NodeId} (inputs : List Ty) {found : List Ty}
    (hlength : args.length = found.length) (s : State) :
    Ends (arguments e n args inputs found) s fun _ s' =>
      Quiet s s' ∧ (s'.Clean → List.Forall₂ (fun f i => f.compatible i = true) found inputs) := by
  rw [arguments]
  split
  · refine (complain_spec e _ _ s).mono ?_
    rintro - s' ⟨hquiet, hunclean⟩
    exact ⟨hquiet, fun hclean => absurd hclean hunclean⟩
  · next hsame =>
      have hsame : inputs.length = found.length := by simpa using hsame
      refine (checkEach_spec _ s).mono ?_
      rintro - s' ⟨hquiet, hcompatible⟩
      refine ⟨hquiet, fun hclean => List.forall₂_iff_zip.mpr ⟨hsame.symm, fun {f i} hmem => ?_⟩⟩
      obtain ⟨k, hk, hfi⟩ := List.mem_iff_getElem.mp hmem
      have hk' : k < (args.zip (found.zip inputs)).length := by
        simp only [List.length_zip] at hk ⊢
        omega
      have hcompatible := hcompatible hclean _ (List.getElem_mem hk')
      rw [List.getElem_zip, hfi] at hcompatible
      exact hcompatible

theorem pick_mem {t : Tree} {candidates : List NodeId} {count : Nat} {d : NodeId}
    (h : pick t candidates count = some d) : d ∈ candidates := by
  rcases Option.or_eq_some_iff.mp h with h | ⟨-, h⟩
  · exact List.mem_of_find?_eq_some h
  · exact List.mem_of_head? h

end Arguments

section Operands

variable (ht : e.tree.WellFormed) (hds : e.decls.Sane e.tree) (hrun : Obeys e.tree run)
  (hinits : ∀ d, ∀ i ∈ e.decls.initializersOf d,
    e.tree.Initializes (Declarations.ofTree e.tree).extended d i)
  (hdecls : e.decls = .ofTree e.tree) {n : NodeId} {ctx : Context}

include ht hrun

theorem exprs_spec {cs : List NodeId} (hcs : cs.Sublist (e.tree.children n))
    (hinv : Invariant e.tree opened s)
    (hready : ∀ c ∈ cs, Job.Ready e.tree opened s (.expr c ctx)) :
    Ends (cs.mapM fun c => run (.expr c ctx)) s fun as s' =>
      Moves e.tree opened (fun x => ∃ c ∈ cs, e.tree.Below c x) s s' ∧
        List.Forall₂ (fun c a => Job.Result e.tree a s' (.expr c ctx)) cs as := by
  have hapart : (cs.map (Job.expr · ctx)).Pairwise (Job.Apart e.tree) :=
    List.pairwise_map.mpr ((Tree.children_pairwise ht n).sublist hcs)
  have hmapM : cs.mapM (fun c => run (.expr c ctx)) = (cs.map (Job.expr · ctx)).mapM run := by
    rw [List.mapM_map]
    rfl
  rw [hmapM]
  refine (mapM_spec ht hrun hapart hinv (by simpa using hready)).mono ?_
  rintro as s' ⟨hmoves, hresults⟩
  exact ⟨hmoves.widen (by simp [Job.Region]), List.forall₂_map_left_iff.mp hresults⟩

omit hrun in
theorem Judged.of_operands {a : Ty} {s₁ s₂ : State} (hn : (e.tree.kind n).isExpr = true)
    (hmoves : Moves e.tree opened (e.tree.Below n) s s₁)
    (hfinished : ∀ c ∈ e.tree.children n, Finished e.tree c s₁)
    (hmoves' : Moves e.tree opened (· = n) s₁ s₂) (hproper : a.proper e.tree = true)
    (huncalled : s₂.Uncalled e.tree n a)
    (hrule : s₂.Clean →
      (∀ c ∈ e.tree.children n, ∀ ty, s₁.types.get? c = some ty →
        (s₂.types.insert n a).get? c = some ty) →
      (State.program { s₂ with types := s₂.types.insert n a } e.tree).Lawful n) :
    Judged e.tree opened n a s s₂ where
  moves := hmoves.trans (hmoves'.widen fun x hx => hx ▸ .refl x)
  proper := hproper
  parts := by
    intro c hc
    refine (hfinished c hc).later ht hmoves'.effect ?_
    rintro x ⟨hx, rfl⟩
    exact Tree.not_below_parent ht hc hx
  rule := by
    intro hclean
    refine hrule hclean fun c hc ty hty => ?_
    have hne : n ≠ c := by
      rintro rfl
      exact Tree.not_below_parent ht hc (.refl n)
    have hexpr := Tree.isExpr_of_below ht hn (Tree.below_child hc)
    rw [Table.get?_insert, if_neg hne, hmoves'.effect.types c (.inl hexpr) hne.symm
      ((hfinished c hc).guards c (.refl c)), hty]
  uncalled := huncalled

omit hrun in
theorem Judged.of_value {a : Ty} {s₁ s₂ : State} (hn : (e.tree.kind n).isExpr = true)
    (hname : ∀ domain x, e.tree.kind n ≠ .name domain x)
    (hmoves : Moves e.tree opened (e.tree.Below n) s s₁)
    (hfinished : ∀ c ∈ e.tree.children n, Finished e.tree c s₁)
    (hmoves' : Moves e.tree opened (· = n) s₁ s₂) (hplain : a.plain e.tree = true)
    (hrule : s₂.Clean →
      (∀ c ∈ e.tree.children n, ∀ ty, s₁.types.get? c = some ty →
        (s₂.types.insert n a).get? c = some ty) →
      (State.program { s₂ with types := s₂.types.insert n a } e.tree).Lawful n) :
    Judged e.tree opened n a s s₂ :=
  .of_operands ht hn hmoves hfinished hmoves' (Ty.proper_of_plain hplain)
    (hmoves'.invariant.uncalled hname hplain) hrule

include hds

theorem memberOperator_spec {l r : NodeId} {op : Name} (lhs rhs : Ty)
    (hk : e.tree.kind n = .binary l op r) (hinv : Invariant e.tree opened s)
    (hopens : s.Opens e.tree opened n) (haround : s.ConcernsAround e.tree opened n)
    (hnone : s.references.get? n = none) :
    Ends (memberOperator e run n op lhs rhs r) s fun a s' =>
      Moves e.tree opened (· = n) s s' ∧ a.plain e.tree = true ∧
        (s'.Clean → (s'.program e.tree).Operates n op.text lhs rhs a) := by
  have hn : (e.tree.kind n).isExpr = true := by rw [hk]; rfl
  have hcomplain {s₁ : State} {a : Ty} (c : Complaint)
      (hmoves : Moves e.tree opened (· = n) s s₁) (ha : a.plain e.tree = true) :
      Ends (complain e op.site c >>= fun _ => pure a) s₁ fun a s' =>
        Moves e.tree opened (· = n) s s' ∧ a.plain e.tree = true ∧
          (s'.Clean → (s'.program e.tree).Operates n op.text lhs rhs a) :=
    (complain_spec e op.site c s₁).bind fun _ _ h =>
      .pure ⟨hmoves.trans (h.1.moves hmoves.invariant), ha, fun hclean => absurd hclean h.2⟩
  unfold memberOperator
  split
  · next d hd =>
      obtain ⟨o, -, hmember⟩ := Option.bind_eq_some_iff.mp hd
      obtain ⟨hdeclared, hparameter⟩ := hds.member hmember
      have hdecl := Kind.isDeclaration_of_declared hdeclared
      have hpoints : (s.program e.tree).Points n (.member d) :=
        ⟨op.text, congrArg Kind.spelled hk, hdeclared⟩
      have hrefer := moves_refer ht hinv hpoints (Tree.not_isImplied ht hparameter)
        (.insert_of_none hnone) fun _ => hopens
      have hneed := (haround.later hrefer).allNeed hn (.member (d := d) (by simp))
      refine .bind (.modify (Q := fun _ s' => s' = _) rfl) ?_
      rintro - s₁ rfl
      refine (hrun opened (.signature d) _ hrefer.invariant ⟨hdecl, hneed⟩).bind ?_
      rintro ty s₂ ⟨hmoves, -, hproper, htype, -⟩
      have hmoves' : Moves e.tree opened (· = n) s s₂ := hrefer.trans hmoves.anywhere
      split
      · next operand output =>
          refine (expect_spec e operand rhs r s₂).bind ?_
          rintro - s₃ ⟨hquiet, hcompatible⟩
          have hoperator : s₂.types.get? d = some (.function [operand] output) := by
            simpa using htype
          have href : s₂.references.get? n = some (.member d) := by
            rw [hmoves.effect.references n (.inl hn) id (hopens.guards.later hrefer.effect)]
            simp
          refine .pure ⟨hmoves'.trans (hquiet.moves hmoves'.invariant), hproper, fun hclean => ?_⟩
          · rw [hquiet.same]
            exact .inr (.inr ⟨d, operand, hdecl, href, hoperator, hcompatible hclean⟩)
      · exact hcomplain _ hmoves' hproper
      · exact .pure ⟨hmoves', rfl, fun _ => .inl rfl⟩
  · split
    · exact .pure ⟨.refl hinv, rfl, fun _ => .inl rfl⟩
    · exact hcomplain _ (.refl hinv) rfl

omit ht hds hrun in
theorem offers_of_builtinResult {op : String} {lhs rhs : Ty} {b : Builtin}
    (h : builtinResult op lhs rhs = some b) : ∃ a a' c, builtinOperator op a a' = some c := by
  unfold builtinResult at h
  split at h
  · exact ⟨_, _, _, h⟩
  · cases h

theorem binary_spec {l r : NodeId} {op : Name} (hk : e.tree.kind n = .binary l op r)
    (hinv : Invariant e.tree opened s) (hready : Job.Ready e.tree opened s (.expr n ctx)) :
    Ends (binary e run n l op r ctx) s fun a s' => Judged e.tree opened n a s s' := by
  obtain ⟨hn, hctx, hopens, hblank, haround⟩ := id hready
  have hl : l ∈ e.tree.children n := by simp [Tree.children, hk, Kind.children]
  have hr : r ∈ e.tree.children n := by simp [Tree.children, hk, Kind.children]
  have hapart : ∀ x, ¬ (e.tree.Below r x ∧ e.tree.Below l x) := by
    have hnodup := Tree.children_pairwise ht n
    simp only [Tree.children, hk, Kind.children, List.pairwise_cons, List.mem_singleton,
      forall_eq] at hnodup
    exact fun x h => hnodup.1 x h.symm
  rw [binary]
  refine (hrun opened (.expr l ctx) s hinv (hready.part ht hl)).bind ?_
  rintro lhs s₁ ⟨hmoves₁, hlhs⟩
  refine (hrun opened (.expr r ctx) s₁ hmoves₁.invariant
    ((hready.part ht hr).later ht hmoves₁ hapart)).bind ?_
  rintro rhs s₂ ⟨hmoves₂, hrhs⟩
  obtain ⟨-, -, hltype, hlfinished, -⟩ := hlhs.later ht hmoves₂ fun x hx => hapart x hx.symm
  obtain ⟨-, -, hrtype, hrfinished, -⟩ := hrhs
  have hmoves : Moves e.tree opened (e.tree.Below n) s s₂ :=
    (hmoves₁.widen fun x hx => .of_child hl hx).trans
      (hmoves₂.widen fun x hx => .of_child hr hx)
  have hnone : s₂.references.get? n = none := by
    rw [hmoves₂.effect.references n (.inl hn) (Tree.not_below_parent ht hr)
      (hopens.later hmoves₁.effect).guards, hmoves₁.effect.references n (.inl hn)
        (Tree.not_below_parent ht hl) hopens.guards, hblank n (.refl n) hn]
  have hfinished : ∀ c ∈ e.tree.children n, Finished e.tree c s₂ := by
    simp only [Tree.children, hk, Kind.children, List.mem_cons, List.not_mem_nil, or_false]
    rintro c (rfl | rfl)
    · exact hlfinished
    · exact hrfinished
  have hjudged {a : Ty} {s₃ : State} (hmoves' : Moves e.tree opened (· = n) s₂ s₃)
      (hplain : a.plain e.tree = true)
      (hop : s₃.Clean → (s₃.program e.tree).Operates n op.text lhs rhs a) :
      Judged e.tree opened n a s s₃ := by
    refine .of_value ht hn (by simp [hk]) hmoves hfinished hmoves' hplain
      fun hclean htypes => ?_
    have hlchild := htypes l hl lhs hltype
    have hrchild := htypes r hr rhs hrtype
    have hnode : (s₃.types.insert n a).get? n = some a := by simp
    exact Program.Accepts.lawful (.of_binary hk hlchild hrchild hnode
      ((hop hclean).stable (effect_setType hn s₃ a).extends rfl))
        (fun _ _ hcall => by cases hk.symm.trans hcall) fun _ _ hb => by cases hk.symm.trans hb
  have hopens₂ := hopens.later hmoves.effect
  split
  · exact .pure (hjudged (.refl hmoves.invariant) rfl fun _ => .inl rfl)
  · exact .pure (hjudged (.refl hmoves.invariant) rfl fun _ => .inl rfl)
  · split
    · next b hb =>
        have hpoints : (s₂.program e.tree).Points n (.builtin op.text) := by
          refine ⟨congrArg Kind.spelled hk, ?_⟩
          change (e.tree.kind n).Offers op.text
          rw [hk]
          exact offers_of_builtinResult hb
        have hmoves' := moves_refer ht hmoves.invariant hpoints trivial (.insert_of_none hnone)
          fun _ => hopens₂
        refine .bind (.modify (Q := fun _ s' => s' = _) rfl) ?_
        rintro - s₃ rfl
        exact .pure (hjudged hmoves' rfl fun _ => .inr (.inl ⟨b, hb, rfl⟩))
    · refine (memberOperator_spec ht hds hrun lhs rhs hk hmoves.invariant hopens₂
        (haround.later hmoves) hnone).mono ?_
      rintro a s₃ ⟨hmoves', hplain, hop⟩
      exact hjudged hmoves' hplain hop

omit hds in
theorem applied_spec {callee : NodeId} {args : List NodeId} {after : Ty → List Ty → CheckM Ty}
    {Q : Ty → State → Prop} (hchildren : e.tree.children n = callee :: args)
    (hinv : Invariant e.tree opened s) (hready : Job.Ready e.tree opened s (.expr n ctx))
    (hafter : ∀ ty found s₁, Moves e.tree opened (e.tree.Below n) s s₁ →
      (∀ c ∈ e.tree.children n, Finished e.tree c s₁) →
      ty.proper e.tree = true → s₁.types.get? callee = some ty →
      (∀ i, s₁.references.get? callee ≠ some (.constructor i)) →
      List.Forall₂ (fun c a => s₁.types.get? c = some a) args found →
      Ends (after ty found) s₁ Q) :
    Ends (run (.expr callee ctx) >>= fun ty =>
      args.mapM (fun a => run (.expr a ctx)) >>= fun found => after ty found) s Q := by
  have hcallee : callee ∈ e.tree.children n := by simp [hchildren]
  have hargs : ∀ a ∈ args, a ∈ e.tree.children n := by simp_all
  have hapart := Tree.children_pairwise ht n
  rw [hchildren, List.pairwise_cons] at hapart
  refine (hrun opened (.expr callee ctx) s hinv (hready.part ht hcallee)).bind ?_
  rintro ty s₁ ⟨hmoves, hresult⟩
  refine (exprs_spec ht hrun (n := n) (by simp [hchildren]) hmoves.invariant fun a ha => ?_).bind ?_
  · exact (hready.part ht (hargs a ha)).later ht hmoves fun x hx => hapart.1 a ha x hx.symm
  · rintro found s₂ ⟨hmoves', hresults⟩
    have hrest : ∀ x, ¬ (e.tree.Below callee x ∧ ∃ a ∈ args, e.tree.Below a x) := by
      rintro x ⟨hx, a, ha, hx'⟩
      exact hapart.1 a ha x ⟨hx, hx'⟩
    obtain ⟨-, hproper, htype, hfinished, huncalled⟩ := hresult.later ht hmoves' hrest
    refine hafter ty found s₂ (.trans (hmoves.widen fun x hx => .of_child hcallee hx)
      (hmoves'.widen ?_)) ?_ hproper htype huncalled (hresults.imp fun _ _ h => h.2.2.1)
    · rintro x ⟨a, ha, hx⟩
      exact .of_child (hargs a ha) hx
    · rw [hchildren]
      rintro c (_ | ⟨_, hc⟩)
      · exact hfinished
      · obtain ⟨a, ha⟩ := exists_of_forall₂ hresults hc
        exact ha.2.2.2.1

omit ht hds hrun in
theorem forall₂_comp {α β γ : Type} {R : α → β → Prop} {S : β → γ → Prop} {T : α → γ → Prop}
    (hT : ∀ a b c, R a b → S b c → T a c) {as : List α} {bs : List β} {cs : List γ}
    (h : List.Forall₂ R as bs) (h' : List.Forall₂ S bs cs) : List.Forall₂ T as cs := by
  induction h generalizing cs with
  | nil =>
      cases h'
      exact .nil
  | cons hab _ ih =>
      cases h' with
      | cons hbc hrest => exact .cons (hT _ _ _ hab hbc) (ih hrest)

include hdecls in
theorem subscript_spec {callee : NodeId} {args : List (Option Name × NodeId)}
    (hk : e.tree.kind n = .subscriptCall callee args) (hinv : Invariant e.tree opened s)
    (hready : Job.Ready e.tree opened s (.expr n ctx)) :
    Ends (subscript e run n callee (args.map (·.2)) ctx) s fun a s' =>
      Judged e.tree opened n a s s' := by
  have hchildren : e.tree.children n = callee :: args.map (·.2) := by
    rw [Tree.children, hk, Kind.children]
  refine applied_spec ht hrun hchildren hinv hready ?_
  intro ty found s₁ hmoves hfinished _ _ _ hargs
  have hjudged {a : Ty} {s₂ : State} (hmoves' : Moves e.tree opened (· = n) s₁ s₂)
      (hplain : a.plain e.tree = true) : Judged e.tree opened n a s s₂ :=
    .of_value ht hready.1 (by simp [hk]) hmoves hfinished hmoves' hplain fun _ _ =>
      .of_hasRule (by simp [State.program, hk, Kind.hasRule])
  split
  · exact .pure (hjudged (.refl hmoves.invariant) rfl)
  · exact .pure (hjudged (.refl hmoves.invariant) rfl)
  · dsimp only
    split
    · refine (complain_spec e _ _ s₁).bind ?_
      rintro - s₂ ⟨hquiet, -⟩
      exact .pure (hjudged (hquiet.moves hmoves.invariant) rfl)
    · next d hd =>
        obtain ⟨o, ho⟩ : ∃ o, d ∈ e.decls.subscriptsOf o := by
          have hmem := pick_mem hd
          cases howner : ownerOf e.tree ty with
          | none => simp [howner] at hmem
          | some o => exact ⟨o, by simpa [howner] using hmem⟩
        have hneed := (hready.2.2.2.2.later hmoves).allNeed hready.1 (.indexed hk (hdecls ▸ ho))
        refine (hrun opened (.signature d) s₁ hmoves.invariant
          ⟨hds.subscriptsOf ho, hneed⟩).bind ?_
        rintro ty' s₂ ⟨hmoves', -, hproper, -⟩
        split
        · next inputs output =>
            refine (arguments_spec n inputs hargs.length_eq s₂).bind ?_
            rintro - s₃ ⟨hquiet, -⟩
            exact .pure (hjudged (hmoves'.anywhere.trans (hquiet.moves hmoves'.invariant)) hproper)
        · exact .pure (hjudged hmoves'.anywhere rfl)

omit ht hds hrun in
theorem Finished.constructs {t : Tree} (ht : t.WellFormed) {n i : NodeId} {ty : Ty}
    {domain : Option NodeId} {x : Name} (h : Finished t n s) (hk : t.kind n = .name domain x)
    (hty : s.types.get? n = some (.metatype ty))
    (hkeeps : t.KeepsNeeds s.references (s.references.insert n (.constructor i))) :
    Finished t n { s with references := s.references.insert n (.constructor i) } where
  guards := h.guards
  lawful := by
    intro hclean y hy
    by_cases heq : y = n
    · subst heq
      exact Program.Accepts.lawful (.of_name hk hty fun d href => by simp [State.program] at href)
        (fun _ _ hcall => by cases hk.symm.trans hcall) fun _ _ hb => by cases hk.symm.trans hb
    · refine (h.lawful hclean y hy).stable ⟨⟨rfl, fun _ _ _ hd _ => hd⟩, fun _ _ _ => rfl,
        fun z hz _ => ?_⟩ ht hkeeps
      have hne : n ≠ z := by
        rintro rfl
        exact heq (hy.antisymm ht hz)
      simp [State.program, hne]

/-- The initializer takes arguments of the types `found`, unless it needs itself. -/
def State.Suits (s : State) (t : Tree) (i : NodeId) (found : List Ty) : Prop :=
  t.IsCircular s.references i ∨ ∃ d inputs output, i ∈ (Declarations.ofTree t).initializersOf d ∧
    s.types.get? i = some (.function inputs output) ∧
      List.Forall₂ (fun f input => f.compatible input = true) found inputs

structure Constructed (t : Tree) (opened : NodeId → Prop) (callee d : NodeId) (found : List Ty)
    (a : Ty) (s s' : State) : Prop where
  moves : Moves t opened (· = callee) s s'
  finished : Finished t callee s'
  plain : a.plain t = true
  type : s'.types.get? callee = some (.metatype (.product d))
  suits : s'.Clean → ∀ i, s'.references.get? callee = some (.constructor i) → s'.Suits t i found

include hinits in
theorem initializer_signature_spec {d i : NodeId} (hi : i ∈ e.decls.initializersOf d)
    (hinv : Invariant e.tree opened s) (hneed : s.AllNeed e.tree opened i) :
    Ends (run (.signature i)) s fun a s' => Moves e.tree opened nowhere s s' ∧
      (e.tree.IsCircular s'.references i ∨
        s'.types.get? i = some a ∧ ∃ inputs output, a = .function inputs output) := by
  obtain ⟨introducer, ps, body, synthesized, hk⟩ := (hinits d i hi).exists_init ht
  refine (hrun opened (.signature i) s hinv ⟨hds.initializersOf hi, hneed⟩).mono ?_
  rintro a s' ⟨hmoves, -, -, -, hrecorded⟩
  refine ⟨hmoves, ?_⟩
  by_cases hidle : s.inProgress.get? i = none
  · have hty := hrecorded (by rw [hk]; rfl) ((hmoves.resumes.inProgress i).trans hidle)
    obtain ⟨inputs, output, rfl, -⟩ :=
      hmoves.invariant.inputs i introducer ps body synthesized a hk hty
    exact .inr ⟨hty, inputs, output, rfl⟩
  · exact .inl ((hneed.isCircular (.inl hidle)).later hmoves.effect.keeps)

include hinits hdecls in
theorem construction_spec {callee d : NodeId} {args : List NodeId} {found : List Ty}
    {labeled : List (Option Name × NodeId)} (hk : e.tree.kind n = .call callee labeled)
    (hexpr : (e.tree.kind callee).isExpr = true) (hinv : Invariant e.tree opened s)
    (hopens : s.Opens e.tree opened callee) (haround : s.ConcernsAround e.tree opened callee)
    (hfinished : Finished e.tree callee s)
    (hty : s.types.get? callee = some (.metatype (.product d)))
    (huncalled : ∀ i, s.references.get? callee ≠ some (.constructor i))
    (hlength : args.length = found.length) :
    Ends (construction e run n callee args d found) s fun a s' =>
      Constructed e.tree opened callee d found a s s' := by
  have hproduct : (e.tree.kind d).isProduct = true := by
    simpa only [Ty.proper] using hinv.proper callee _ hty
  have hplain : (Ty.product d).plain e.tree = true := by
    simp [Ty.plain, Ty.proper, Ty.isMetatype, hproduct]
  have hend {s₁ s₂ : State} (hmoves : Moves e.tree opened (· = callee) s s₁)
      (hfinished : Finished e.tree callee s₁)
      (hty : s₁.types.get? callee = some (.metatype (.product d))) (hquiet : Quiet s₁ s₂)
      (hsuits : s₂.Clean → ∀ i, s₂.references.get? callee = some (.constructor i) →
        s₂.Suits e.tree i found) :
      Ends (pure (Ty.product d)) s₂ fun a s' =>
        Constructed e.tree opened callee d found a s s' := by
    have hmoves' : Moves e.tree opened nowhere s₁ s₂ := hquiet.moves hmoves.invariant
    refine .pure ⟨hmoves.trans hmoves'.anywhere,
      hfinished.later ht hmoves'.effect fun _ h => h.2, hplain, ?_, hsuits⟩
    rw [hquiet.same]
    exact hty
  rw [construction]
  split
  · refine (complain_spec e _ _ s).bind fun _ s₁ h => ?_
    exact hend (.refl hinv) hfinished hty h.1 fun hclean => absurd hclean h.2
  · next i hi =>
      obtain ⟨domain, x, hname⟩ := hinv.metatypes callee _ hexpr hty
      have hpoints : (s.program e.tree).Points callee (.constructor i) :=
        ⟨domain, x, n, labeled, d, hname, hk, hty, hproduct, hinits d i (pick_mem hi)⟩
      have hkeeps : e.tree.KeepsNeeds s.references
          (s.references.insert callee (.constructor i)) := by
        refine .insert_constructor huncalled fun c hc => ?_
        rcases hc with hc | hc <;> exact ⟨hinv.points callee _ hc, hinv.inText callee _ hc⟩
      have hrefer := moves_refer ht hinv hpoints trivial hkeeps fun _ => hopens
      have hconstructs := hfinished.constructs ht hname hty hkeeps
      have hneed := (haround.later hrefer).allNeed hexpr (.constructed (d := i) (by simp))
      refine .bind (.modify (Q := fun _ s' => s' = _) rfl) ?_
      rintro - s₁ rfl
      refine (initializer_signature_spec ht hds hrun hinits (pick_mem hi) hrefer.invariant
        hneed).bind ?_
      rintro a s₂ ⟨hmoves, hknown⟩
      have hmoves' := hrefer.trans hmoves.anywhere
      have hfinished' := hconstructs.later ht hmoves.effect fun _ h => h.2
      have hguard := hconstructs.guards callee (.refl callee)
      have hty' : s₂.types.get? callee = some (.metatype (.product d)) := by
        rw [hmoves.effect.types callee (.inl hexpr) id hguard]
        exact hty
      have href {i' : NodeId} (h : s₂.references.get? callee = some (.constructor i')) :
          i = i' := by
        rw [hmoves.effect.references callee (.inl hexpr) id hguard] at h
        simpa using h
      split
      · next inputs output =>
          refine (arguments_spec n inputs hlength s₂).bind fun _ s₃ h => ?_
          refine hend hmoves' hfinished' hty' h.1 fun hclean i' hi' => ?_
          have hcompatible := h.2 hclean
          rw [h.1.same] at hi' ⊢
          obtain rfl := href hi'
          refine hknown.imp_right fun hknown => ?_
          exact ⟨d, inputs, output, hdecls ▸ pick_mem hi, hknown.1, hcompatible⟩
      · next hnot =>
          refine hend hmoves' hfinished' hty' (.refl s₂) fun _ i' hi' => .inl ?_
          obtain rfl := href hi'
          refine hknown.resolve_right ?_
          rintro ⟨-, inputs, output, rfl⟩
          exact hnot inputs output rfl

omit ht hds hrun in
theorem taken_of_compatible {types types' : Table Ty} {args : List (Option Name × NodeId)}
    {found inputs : List Ty}
    (hargs : List.Forall₂ (fun c f => types.get? c = some f) (args.map (·.2)) found)
    (htypes : ∀ c ∈ args.map (·.2), ∀ f, types.get? c = some f → types'.get? c = some f)
    (h : List.Forall₂ (fun f input => f.compatible input = true) found inputs) :
    List.Forall₂ (fun a input => ∃ f, types'.get? a.2 = some f ∧ f.compatible input = true)
      args inputs := by
  refine forall₂_comp ?_ ((List.forall₂_and_left _ _).mpr
    ⟨fun a ha => List.mem_map_of_mem (f := (·.2)) ha, List.forall₂_map_left_iff.mp hargs⟩) h
  rintro a f input ⟨ha, hf⟩ hinput
  exact ⟨f, htypes a.2 ha f hf, hinput⟩

omit hds hrun in
theorem Constructed.judged {callee d : NodeId} {args : List (Option Name × NodeId)}
    {found : List Ty} {a : Ty} {s₁ s₂ : State} (hk : e.tree.kind n = .call callee args)
    (hexpr : (e.tree.kind n).isExpr = true) (hmoves : Moves e.tree opened (e.tree.Below n) s s₁)
    (hfinished : ∀ c ∈ e.tree.children n, Finished e.tree c s₁)
    (hargs : List.Forall₂ (fun c f => s₁.types.get? c = some f) (args.map (·.2)) found)
    (hconstructed : Constructed e.tree opened callee d found a s₁ s₂) :
    Judged e.tree opened n a s s₂ := by
  have hmoves' := hconstructed.moves
  have hchildren : e.tree.children n = callee :: args.map (·.2) := by
    rw [Tree.children, hk, Kind.children]
  have hcallee : callee ∈ e.tree.children n := by simp [hchildren]
  have hapart := Tree.children_pairwise ht n
  rw [hchildren, List.pairwise_cons] at hapart
  have hbelow : e.tree.Below n callee := Tree.below_child hcallee
  have hself {c : NodeId} (hc : c ∈ e.tree.children n) : n ≠ c := by
    rintro rfl
    exact Tree.not_below_parent ht hc (.refl n)
  refine ⟨hmoves.trans (hmoves'.widen fun x hx => hx ▸ hbelow),
    Ty.proper_of_plain hconstructed.plain, fun c hc => ?_, fun hclean => ⟨?_, ?_,
      fun _ _ _ _ _ _ _ _ hb => by cases hk.symm.trans hb⟩,
    hmoves'.invariant.uncalled (by simp [hk]) hconstructed.plain⟩
  · rw [hchildren] at hc
    rcases List.mem_cons.mp hc with rfl | harg
    · exact hconstructed.finished
    · refine (hfinished c (hchildren ▸ hc)).later ht hmoves'.effect ?_
      rintro x ⟨hx, rfl⟩
      exact hapart.1 c harg x ⟨.refl x, hx⟩
  · refine .of_call hk fun inputs output h => ?_
    simp [State.program, hself hcallee, hconstructed.type] at h
  · intro callee' args' i hk' href
    obtain ⟨rfl, rfl⟩ := Kind.call.inj (hk.symm.trans hk')
    refine (hconstructed.suits hclean i href).imp_right ?_
    rintro ⟨owner, inputs, output, hmem, hi, hcompatible⟩
    refine ⟨owner, inputs, output, hmem, ?_,
      taken_of_compatible hargs (fun c hc f hf => ?_) hcompatible⟩
    · have hne : n ≠ i := by
        rintro rfl
        simpa [hk, Kind.isDeclaration] using (Declarations.sane_ofTree ht).initializersOf hmem
      simpa [State.program, hne] using hi
    · have hc' : c ∈ e.tree.children n := hchildren ▸ List.mem_cons_of_mem _ hc
      have hne : c ≠ callee := by
        rintro rfl
        exact hapart.1 c hc c ⟨.refl c, .refl c⟩
      have hcexpr := Tree.isExpr_of_below ht hexpr (Tree.below_child hc')
      refine (Table.get?_insert ..).trans ?_
      rw [if_neg (hself hc'), hmoves'.effect.types c (.inl hcexpr) hne
        ((hfinished c hc').guards c (.refl c)), hf]

include hinits hdecls in
theorem call_spec {callee : NodeId} {args : List (Option Name × NodeId)}
    (hk : e.tree.kind n = .call callee args) (hinv : Invariant e.tree opened s)
    (hready : Job.Ready e.tree opened s (.expr n ctx)) :
    Ends (call e run n callee (args.map (·.2)) ctx) s fun a s' =>
      Judged e.tree opened n a s s' := by
  have hchildren : e.tree.children n = callee :: args.map (·.2) := by
    rw [Tree.children, hk, Kind.children]
  have hcallee : callee ∈ e.tree.children n := by simp [hchildren]
  refine applied_spec ht hrun hchildren hinv hready ?_
  intro ty found s₁ hmoves hfinished hproper hty huncalled hargs
  have hname : ∀ domain x, e.tree.kind n ≠ .name domain x := by simp [hk]
  have hlawful {a : Ty} {s₂ : State} (hquiet : Quiet s₁ s₂)
      (h : (State.program { s₂ with types := s₂.types.insert n a } e.tree).Accepts n) :
      (State.program { s₂ with types := s₂.types.insert n a } e.tree).Lawful n := by
    refine ⟨h, fun callee' args' i hk' href => ?_, fun _ _ _ _ _ _ _ _ hb => by
      cases hk.symm.trans hb⟩
    obtain ⟨rfl, rfl⟩ := Kind.call.inj (hk.symm.trans hk')
    have href : s₂.references.get? callee = some (.constructor i) := href
    rw [hquiet.same] at href
    exact absurd href (huncalled i)
  have hother {a : Ty} {s₂ : State} (hquiet : Quiet s₁ s₂) (ha : a.plain e.tree = true)
      (hfunction : ∀ inputs output, ty ≠ .function inputs output) :
      Ends (pure a) s₂ fun a s' => Judged e.tree opened n a s s' := by
    refine .pure (.of_value ht hready.1 hname hmoves hfinished (hquiet.moves hmoves.invariant) ha
      fun _ htypes => hlawful hquiet (.of_call hk fun inputs output h => ?_))
    exact absurd (Option.some.inj ((htypes callee hcallee ty hty).symm.trans h))
      (hfunction inputs output)
  have hcomplain (c : Complaint) (hfunction : ∀ inputs output, ty ≠ .function inputs output) :
      Ends (complain e (e.tree.site callee) c >>= fun _ => pure .error) s₁ fun a s' =>
        Judged e.tree opened n a s s' :=
    (complain_spec e _ c s₁).bind fun _ _ h => hother h.1 rfl hfunction
  split
  · next d =>
      have hexpr := Tree.isExpr_of_below ht hready.1 (Tree.below_child hcallee)
      have hpart := hready.part ht hcallee
      exact (construction_spec ht hds hrun hinits hdecls hk hexpr hmoves.invariant
        (hpart.2.2.1.later hmoves.effect) (hpart.2.2.2.2.later hmoves) (hfinished callee hcallee)
        hty huncalled hargs.length_eq).mono fun _ _ hconstructed =>
          hconstructed.judged ht hk hready.1 hmoves hfinished hargs
  · exact hother (.refl s₁) rfl (by simp)
  · exact hcomplain _ (by simp)
  · next inputs output =>
      refine (arguments_spec n inputs hargs.length_eq s₁).bind ?_
      rintro - s₂ ⟨hquiet, hcompatible⟩
      refine .pure (.of_value ht hready.1 hname hmoves hfinished (hquiet.moves hmoves.invariant)
        hproper fun hclean htypes => hlawful hquiet (.of_call hk fun inputs' output' h => ?_))
      have hsame := Option.some.inj ((htypes callee hcallee _ hty).symm.trans h)
      cases hsame
      refine ⟨by simp [State.program],
        taken_of_compatible hargs (fun c hc => ?_) (hcompatible hclean)⟩
      exact htypes c (hchildren ▸ List.mem_cons_of_mem _ hc)
  · exact hother (.refl s₁) rfl (by simp)
  · next h _ => exact hcomplain _ h

theorem name_spec {domain : Option NodeId} {x : Name} (hk : e.tree.kind n = .name domain x)
    (hinv : Invariant e.tree opened s) (hready : Job.Ready e.tree opened s (.expr n ctx)) :
    Ends (match domain with
      | some d => run (.expr d ctx) >>= fun ty => qualified e run n ty x
      | none => unqualified e run n x ctx) s fun a s' => Judged e.tree opened n a s s' := by
  obtain ⟨hn, hctx, hopens, hblank, haround⟩ := id hready
  have hnone := hblank n (.refl n) hn
  cases domain with
  | none =>
      refine (unqualified_spec ht hds hrun hn hk hinv hctx hopens haround hnone).mono ?_
      rintro a s₁ ⟨hmoves, hproper, hnames, huncalled⟩
      refine .of_operands ht hn (.refl hinv) ?_ hmoves hproper ⟨huncalled, fun _ => ⟨_, _, hk⟩⟩
        fun hclean _ => (hnames hclean).lawful hk
      simp [Tree.children, hk, Kind.children]
  | some d =>
      have hd : d ∈ e.tree.children n := by simp [Tree.children, hk, Kind.children]
      refine (hrun opened (.expr d ctx) s hinv (hready.part ht hd)).bind ?_
      rintro ty s₁ ⟨hmoves, -, -, -, hfinished, -⟩
      have hnone₁ : s₁.references.get? n = none := by
        rw [hmoves.effect.references n (.inl hn) (Tree.not_below_parent ht hd) hopens.guards, hnone]
      refine (qualified_spec ht hds hrun hn ty hk hmoves.invariant (hopens.later hmoves.effect)
        (haround.later hmoves) hnone₁).mono ?_
      rintro a s₂ ⟨hmoves', hproper, hnames, huncalled⟩
      refine .of_operands ht hn (hmoves.widen fun y hy => .of_child hd hy) ?_ hmoves' hproper
        ⟨huncalled, fun _ => ⟨_, _, hk⟩⟩ fun hclean _ => (hnames hclean).lawful hk
      simpa [Tree.children, hk, Kind.children] using hfinished

omit hds in
theorem tuple_spec {es : List NodeId} (hk : e.tree.kind n = .tuple es)
    (hinv : Invariant e.tree opened s) (hready : Job.Ready e.tree opened s (.expr n ctx)) :
    Ends (es.mapM (fun c => run (.expr c ctx)) >>= fun ts => pure (.ofElements ts)) s fun a s' =>
      Judged e.tree opened n a s s' := by
  have hchildren : e.tree.children n = es := by rw [Tree.children, hk, Kind.children]
  refine (exprs_spec ht hrun (n := n) (by simp [hchildren]) hinv fun c hc => ?_).bind ?_
  · exact hready.part ht (hchildren ▸ hc)
  · rintro as s₁ ⟨hmoves, hresults⟩
    have hproper : ∀ a ∈ as, a.proper e.tree = true := by
      intro a ha
      obtain ⟨c, hc⟩ := exists_of_forall₂ (List.Forall₂.flip hresults) ha
      exact hc.2.1
    refine .pure (.of_value ht hready.1 (by simp [hk]) (hmoves.widen ?_) ?_
      (.refl hmoves.invariant) (Ty.plain_ofElements hproper) fun _ _ => .of_hasRule ?_)
    · rintro x ⟨c, hc, hx⟩
      exact .of_child (hchildren ▸ hc) hx
    · intro c hc
      obtain ⟨a, ha⟩ := exists_of_forall₂ hresults (hchildren ▸ hc)
      exact ha.2.2.2.1
    · simp [State.program, hk, Kind.hasRule]

include hinits hdecls in
theorem expr_spec (hinv : Invariant e.tree opened s)
    (hready : Job.Ready e.tree opened s (.expr n ctx)) :
    Ends (expr e run n ctx) s fun a s' =>
      Moves e.tree opened (e.tree.Below n) s s' ∧ Job.Result e.tree a s' (.expr n ctx) := by
  obtain ⟨hn, -, hopens, -⟩ := id hready
  have hdecl : (e.tree.kind n).isDeclaration = false := by
    cases hk : e.tree.kind n <;> simp [hk, Kind.isExpr, Kind.isDeclaration] at hn ⊢
  have hwrite {a : Ty} {s₁ : State} (h : Judged e.tree opened n a s s₁) :
      Ends (setType n a >>= fun _ => pure a) s₁ fun a s' =>
        Moves e.tree opened (e.tree.Below n) s s' ∧ Job.Result e.tree a s' (.expr n ctx) := by
    have hset := moves_setType ht h.moves.invariant hdecl h.proper
      (fun _ b hb hbelow => (hopens b hb hbelow).2) fun _ => h.uncalled
    have hmoves := h.moves.trans (hset.widen fun x hx => hx ▸ .refl x)
    refine .bind (.modify (Q := fun _ s' => s' = _) rfl) ?_
    rintro - s' rfl
    refine .pure ⟨hmoves, hn, h.proper, by simp, ⟨?_, ?_⟩, h.uncalled.1⟩
    · intro x hx
      exact (hopens.below ht hn hx).guards.later hmoves.effect
    · intro hclean x hx
      rcases Tree.below_iff.mp hx with rfl | ⟨c, hc, hx⟩
      · exact h.rule hclean
      · refine ((h.parts c hc).later ht hset.effect ?_).lawful hclean x hx
        rintro y ⟨hy, rfl⟩
        exact Tree.not_below_parent ht hc hy
  have hleaf (a : Ty) (ha : a.plain e.tree = true) (hchildren : (e.tree.kind n).children = [])
      (hname : ∀ domain x, e.tree.kind n ≠ .name domain x)
      (hrule : (e.tree.kind n).hasRule = false) :
      Ends (pure a >>= fun a => setType n a >>= fun _ => pure a) s fun a s' =>
        Moves e.tree opened (e.tree.Below n) s s' ∧ Job.Result e.tree a s' (.expr n ctx) := by
    rw [pure_bind]
    exact hwrite (.of_value ht hn hname (.refl hinv) (by simp [Tree.children, hchildren])
      (.refl hinv) ha fun _ _ => .of_hasRule hrule)
  rw [expr]
  split
  · next hk =>
      exact hleaf _ rfl (by simp [hk, Kind.children]) (by simp [hk]) (by simp [hk, Kind.hasRule])
  · next hk =>
      exact hleaf _ rfl (by simp [hk, Kind.children]) (by simp [hk]) (by simp [hk, Kind.hasRule])
  · next hk =>
      exact hleaf _ rfl (by simp [hk, Kind.children]) (by simp [hk]) (by simp [hk, Kind.hasRule])
  · next hk =>
      exact hleaf _ rfl (by simp [hk, Kind.children]) (by simp [hk]) (by simp [hk, Kind.hasRule])
  · next d x hk =>
      rw [← bind_assoc]
      exact (name_spec ht hds hrun hk hinv hready).bind fun a s₁ h => hwrite h
  · next x hk => exact (name_spec ht hds hrun hk hinv hready).bind fun a s₁ h => hwrite h
  · next hk =>
      exact (call_spec ht hds hrun hinits hdecls hk hinv hready).bind fun a s₁ h => hwrite h
  · next hk => exact (subscript_spec ht hds hrun hdecls hk hinv hready).bind fun a s₁ h => hwrite h
  · next hk => exact (binary_spec ht hds hrun hk hinv hready).bind fun a s₁ h => hwrite h
  · next hk =>
      rw [← bind_assoc]
      exact (tuple_spec ht hrun hk hinv hready).bind fun a s₁ h => hwrite h
  · clear hwrite hleaf
    cases hk : e.tree.kind n with
    | name domain x => cases domain <;> simp_all
    | _ => simp_all [Kind.isExpr]

end Operands

end LanguageService.Check
