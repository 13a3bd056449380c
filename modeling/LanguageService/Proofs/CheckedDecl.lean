import LanguageService.Proofs.CheckedStmt

namespace LanguageService.Check

variable {e : Env} {run : Run} {opened : NodeId → Prop} {s : State}

theorem State.GivesBack.later {t : Tree} (ht : t.WellFormed) {region : NodeId → Prop} {s' : State}
    {ty : Ty} {n : NodeId} (h : s.GivesBack t ty n) (hfinished : Finished t n s)
    (heffect : Effect t region s s') (hout : ∀ x, ¬ (t.Below n x ∧ region x)) :
    s'.GivesBack t ty n := by
  intro hclean x hx
  refine (h (heffect.clean hclean) x hx).stable (heffect.settled (x := n) ?_ ?_) ht hx
  · exact fun y hy _ hin => hout y ⟨hy, hin⟩
  · exact fun y hy _ => hfinished.guards y hy

section Bodies

variable (ht : e.tree.WellFormed) (hrun : Obeys e.tree run) {d : NodeId} {ps : List NodeId}

theorem parameterFrame_isLocal
    (hps : ∀ p ∈ ps, (e.tree.kind p).isParameter = true ∧ ¬ e.tree.IsImplied p) :
    ∀ q ∈ parameterFrame e ps, IsLocal e.tree q := by
  intro q hq
  obtain ⟨hp, hdeclared⟩ := mem_parameterFrame hq
  exact ⟨.inr (hps q.2 hp).1, hdeclared, (hps q.2 hp).2⟩

include ht hrun

theorem body_spec {b : NodeId} (output : Ty)
    (hps : ∀ p ∈ ps, (e.tree.kind p).isParameter = true ∧ ¬ e.tree.IsImplied p)
    (hb : (e.tree.kind b).isStmt = true) (hidle : s.IsIdle opened)
    (hfresh : s.Fresh e.tree b) (hinv : Invariant e.tree opened s) :
    Ends (body e run d ps output b) s fun _ s' =>
      Moves e.tree opened (e.tree.Below b) s s' ∧ Finished e.tree b s' ∧
        s'.GivesBack e.tree output b := by
  rw [body]
  refine (contextOf_spec ht hrun d hinv).bind ?_
  rintro ctx s₁ ⟨hmoves₁, hctx⟩
  have hframes : ∀ f ∈ [parameterFrame e ps], ∀ p ∈ f, IsLocal e.tree p := by
    intro f hf
    rw [List.mem_singleton] at hf
    subst hf
    exact parameterFrame_isLocal hps
  refine (withFrames_spec hmoves₁.invariant hframes fun s₂ hmoves₂ =>
    hrun opened (.stmt b { ctx with returnType := some output }) s₂ hmoves₂.invariant
      ⟨hb, ⟨hctx.selfType, hctx.generics⟩, (hidle.later hmoves₁).later hmoves₂,
        ?_⟩).bind ?_
  · exact (hfresh.later hmoves₁.effect fun _ hx => hx.2).later hmoves₂.effect fun _ hx => hx.2
  · rintro _ s₃ ⟨s₂, hmoves₂, ⟨-, hfinished, hreturns⟩, hmoves₃⟩
    refine .pure ⟨(hmoves₁.anywhere.trans hmoves₂).trans hmoves₃.anywhere, ?_, ?_⟩
    · exact hfinished.later ht hmoves₃.effect fun _ hx => hx.2
    · exact State.GivesBack.later ht hreturns hfinished hmoves₃.effect fun _ hx => hx.2

theorem bodies_spec {bs : List NodeId} (output : Ty)
    (hps : ∀ p ∈ ps, (e.tree.kind p).isParameter = true ∧ ¬ e.tree.IsImplied p)
    (hbs : ∀ b ∈ bs, (e.tree.kind b).isStmt = true)
    (hapart : bs.Pairwise fun b b' => ∀ x, ¬ (e.tree.Below b x ∧ e.tree.Below b' x))
    (hidle : s.IsIdle opened) (hfresh : ∀ b ∈ bs, s.Fresh e.tree b)
    (hinv : Invariant e.tree opened s) :
    Ends (bodies e run d ps output bs) s fun _ s' =>
      Moves e.tree opened (fun x => ∃ b ∈ bs, e.tree.Below b x) s s' ∧
        ∀ b ∈ bs, Finished e.tree b s' ∧ s'.GivesBack e.tree output b := by
  induction bs generalizing s with
  | nil => exact .pure ⟨.refl hinv, by simp⟩
  | cons b bs ih =>
      rw [List.pairwise_cons] at hapart
      rw [bodies]
      refine (body_spec ht hrun output hps (hbs b (by simp)) hidle (hfresh b (by simp))
        hinv).bind ?_
      rintro - s₁ ⟨hmoves, hfinished, hreturns⟩
      have hfresh' : ∀ b' ∈ bs, s₁.Fresh e.tree b' := fun b' hb' =>
        (hfresh b' (by simp [hb'])).later hmoves.effect fun x hx => hapart.1 b' hb' x hx.symm
      refine (ih (fun b' hb' => hbs b' (by simp [hb'])) hapart.2 (hidle.later hmoves) hfresh'
        hmoves.invariant).mono ?_
      rintro - s₂ ⟨hmoves', hrest⟩
      have hout : ∀ x, ¬ (e.tree.Below b x ∧ ∃ b' ∈ bs, e.tree.Below b' x) := by
        rintro x ⟨hx, b', hb', hx'⟩
        exact hapart.1 b' hb' x ⟨hx, hx'⟩
      refine ⟨.trans (hmoves.widen fun x hx => ⟨b, by simp, hx⟩) (hmoves'.widen ?_), ?_⟩
      · rintro x ⟨b', hb', hx⟩
        exact ⟨b', by simp [hb'], hx⟩
      · intro b' hb'
        rcases List.mem_cons.mp hb' with rfl | hb'
        · exact ⟨hfinished.later ht hmoves'.effect hout,
            hreturns.later ht hfinished hmoves'.effect hout⟩
        · exact hrest b' hb'

end Bodies

section Decls

variable (ht : e.tree.WellFormed) {d : NodeId}

include ht

theorem Finished.of_isMemberwise {i : NodeId} (hi : (e.tree.kind i).isMemberwise = true) :
    Finished e.tree i s := by
  obtain ⟨introducer, ps, synthesized, hk⟩ := Kind.exists_of_isMemberwise hi
  have houter : (e.tree.kind i).isOuter = true := by rw [hk]; rfl
  have hdecl : (e.tree.kind i).isDeclaration = true := by rw [hk]; rfl
  have hbinding : (e.tree.kind i).isBinding = false := by rw [hk]; rfl
  refine .of_parts ht houter (fun c hc => ?_) fun _ =>
    .of_isDeclaration (.of_bodies hdecl hbinding ?_) hdecl hbinding
  · have hps : c ∈ ps := by simpa [Tree.children, hk, Kind.children] using hc
    have hparameter : (e.tree.kind c).isParameter = true :=
      ht.fits i (Kind.isParameter, c) (by simp [hk, Kind.parts, hps])
    exact .of_isInert ht hc houter (by simp [Kind.isInert, hparameter])
  · intro b hb
    simp [State.program, Tree.bodies, hk] at hb

theorem Finished.of_members {ms : List NodeId} (hd : (e.tree.kind d).isMember = true)
    (hrule : (e.tree.kind d).hasRule = false)
    (hparts : ∀ p ∈ (e.tree.kind d).parts, p.2 ∈ ms ∨
      p.1 = Kind.isMemberwise ∨ p.1 = Kind.isType ∨ p.1 = Kind.isGeneric)
    (hmembers : ∀ m ∈ ms, Finished e.tree m s) :
    Finished e.tree d s := by
  have hbinding : (e.tree.kind d).isBinding = false := by
    cases hk : e.tree.kind d <;> simp [hk, Kind.hasRule, Kind.isBinding] at hrule ⊢
  have houter := Kind.isOuter_of_isMember hd hbinding
  refine .of_parts ht houter (fun c hc => ?_) fun _ => .of_hasRule hrule
  obtain ⟨f, hf, hkind⟩ := Tree.kind_of_child ht hc
  rcases hparts _ hf with hc | rfl | rfl | rfl
  · exact hmembers c hc
  · exact .of_isMemberwise ht hkind
  · exact .of_isInert ht hc houter (by simp [Kind.isInert, hkind])
  · exact .of_isInert ht hc houter (by simp [Kind.isInert, hkind])

theorem Job.Ready.member (h : Job.Ready e.tree opened s (.decl d)) {m : NodeId}
    (hm : (Kind.isMember, m) ∈ (e.tree.kind d).parts) :
    Job.Ready e.tree opened s (.decl m) := by
  obtain ⟨-, hidle, hfresh⟩ := h
  exact ⟨ht.fits d _ hm, hidle, fun x hx =>
    hfresh x (.of_child (Tree.child_of_part hm) hx)⟩

theorem bodies_pairwise (d : NodeId) :
    (e.tree.bodies d).Pairwise fun b b' => ∀ x, ¬ (e.tree.Below b x ∧ e.tree.Below b' x) := by
  have hsingle (b : Option NodeId) :
      b.toList.Pairwise fun b b' => ∀ x, ¬ (e.tree.Below b x ∧ e.tree.Below b' x) := by
    cases b <;> simp
  have hvariant {v b x : NodeId} (hv : variantBody e.tree v = some b) (hx : e.tree.Below b x) :
      e.tree.Below v x := by
    rw [variantBody] at hv
    split at hv
    · next hk =>
        cases hv
        exact .of_child (by simp [Tree.children, hk, Kind.children]) hx
    · cases hv
  rw [Tree.bodies]
  split
  · exact hsingle _
  · next gs ps o vs hk =>
      have hvs : vs.Sublist (e.tree.children d) := by
        rw [Tree.children, hk, Kind.children]
        exact List.sublist_append_right _ _
      refine List.pairwise_filterMap.mpr
        (((Tree.children_pairwise ht d).sublist hvs).imp fun {v v'} h b hb b' hb' x hx => ?_)
      exact h x ⟨hvariant hb hx.1, hvariant hb' hx.2⟩
  · exact hsingle _
  · exact hsingle _
  · exact .nil

theorem Finished.of_bodies (hd : (e.tree.kind d).isMember = true)
    (hbinding : (e.tree.kind d).isBinding = false) (hrule : (e.tree.kind d).hasRule = true)
    (hbodies : ∀ b ∈ e.tree.bodies d, Finished e.tree b s) :
    ∀ c ∈ e.tree.children d, Finished e.tree c s := by
  intro c hc
  have houter := Kind.isOuter_of_isMember hd hbinding
  obtain ⟨f, hf, hkind⟩ := Tree.kind_of_child ht hc
  rcases Tree.parts_of_hasRule (Kind.isDeclaration_of_isMember hd) hbinding hrule _ hf with
    hinert | hbody | ⟨rfl, hvariant⟩
  · refine .of_isInert ht hc houter ?_
    rcases hinert with rfl | rfl | rfl <;> simp [Kind.isInert, hkind]
  · exact hbodies c hbody
  · obtain ⟨introducer, effect, b, hk⟩ := Kind.exists_of_isVariant hkind
    refine .of_parts ht (Kind.isOuter_of_isVariant hkind) ?_ fun _ => .of_hasRule ?_
    · simp only [Tree.children, hk, Kind.children, List.mem_singleton, forall_eq]
      exact hbodies b (hvariant b (by simp [variantBody, hk]))
    · simp [State.program, hk, Kind.hasRule]

variable (hrun : Obeys e.tree run)

include hrun

theorem members_spec {ms : List NodeId} (hms : ms.Sublist (e.tree.children d))
    (hinv : Invariant e.tree opened s)
    (hready : ∀ m ∈ ms, Job.Ready e.tree opened s (.decl m)) :
    Ends (each run (ms.map .decl)) s fun _ s' =>
      Moves e.tree opened (e.tree.Below d) s s' ∧ ∀ m ∈ ms, Finished e.tree m s' := by
  have hapart : (ms.map Job.decl).Pairwise (Job.Apart e.tree) :=
    List.pairwise_map.mpr ((Tree.children_pairwise ht d).sublist hms)
  refine (each_spec ht hrun hapart hinv (by simpa using hready)).mono ?_
  rintro - s' ⟨hmoves, hresults⟩
  refine ⟨hmoves.widen ?_, fun m hm => ?_⟩
  · rintro x ⟨j, hj, hx⟩
    obtain ⟨m, hm, rfl⟩ := List.mem_map.mp hj
    exact .of_child (hms.subset hm) hx
  · obtain ⟨a, hfinished⟩ := hresults _ (List.mem_map_of_mem hm)
    exact hfinished

theorem function_spec {ps bs : List NodeId} (output : Ty → Ty)
    (hready : Job.Ready e.tree opened s (.decl d)) (hbinding : (e.tree.kind d).isBinding = false)
    (hrule : (e.tree.kind d).hasRule = true) (hbodies : e.tree.bodies d = bs)
    (hps : ∀ p ∈ ps, (Kind.isParameter, p) ∈ (e.tree.kind d).parts)
    (houtput : ∀ (s' : State) ty, s'.types.get? d = some ty →
      (s'.program e.tree).HasOutput d (output ty))
    (hinv : Invariant e.tree opened s) :
    Ends (do
      let ty ← run (.signature d)
      bodies e run d ps (output ty) bs) s fun _ s' =>
      Moves e.tree opened (e.tree.Below d) s s' ∧ Finished e.tree d s' := by
  obtain ⟨hd, hidle, hfresh⟩ := hready
  have hdecl := Kind.isDeclaration_of_isMember hd
  have hvar : (e.tree.kind d).isVar = false := by
    cases hk : e.tree.kind d <;> simp [hk, Kind.isMember, Kind.isVar] at hd ⊢
  have hbs : ∀ b ∈ bs, (e.tree.kind b).isStmt = true ∧ e.tree.Below d b := fun b hb =>
    Tree.isStmt_of_mem_bodies ht (hbodies ▸ hb)
  refine (hrun opened (.signature d) s hinv ⟨hdecl, hidle.allNeed⟩).bind ?_
  rintro ty s₁ ⟨hmoves, -, -, -, htype⟩
  have htype : s₁.types.get? d = some ty := htype hvar ((hidle.later hmoves).get?_inProgress d)
  refine (bodies_spec ht hrun (output ty) (fun p hp => ⟨ht.fits d _ (hps p hp),
    Tree.not_isImplied_of_child ht hd (Tree.child_of_part (hps p hp))⟩)
    (fun b hb => (hbs b hb).1) (hbodies ▸ bodies_pairwise ht d) (hidle.later hmoves)
    (fun b hb => ?_) hmoves.invariant).mono ?_
  · refine State.Fresh.later (fun x hx => ?_) hmoves.effect fun _ hx => hx.2
    exact hfresh x ((hbs b hb).2.trans hx)
  · rintro - s₂ ⟨hmoves', hresults⟩
    refine ⟨hmoves.anywhere.trans (hmoves'.widen ?_), ?_⟩
    · rintro x ⟨b, hb, hx⟩
      exact (hbs b hb).2.trans hx
    · refine .of_parts ht (Kind.isOuter_of_isMember hd hbinding)
        (.of_bodies ht hd hbinding hrule fun b hb => (hresults b (hbodies ▸ hb)).1)
        fun hclean => .of_isDeclaration (.of_bodies hdecl hbinding ?_) hdecl hbinding
      intro b hb
      have hb : b ∈ bs := hbodies ▸ hb
      refine ⟨output ty, houtput s₂ ty ?_, (hresults b hb).2 hclean⟩
      exact hmoves'.effect.decls d ty hdecl htype (by simp [hvar])

theorem conformances_spec {ns : List NodeId} {ctx : Context} (hctx : ctx.Plain e.tree)
    (hns : ∀ n ∈ ns, (Kind.isType, n) ∈ (e.tree.kind d).parts)
    (hd : (e.tree.kind d).isBindingPattern = false) (hinv : Invariant e.tree opened s) :
    Ends (conformances e run ctx ns) s fun _ s' => Moves e.tree opened nowhere s s' := by
  induction ns generalizing s with
  | nil => exact .pure (.refl hinv)
  | cons n ns ih =>
      have hrest {s₁ : State} (hmoves : Moves e.tree opened nowhere s s₁) :
          Ends (conformances e run ctx ns) s₁ fun _ s' => Moves e.tree opened nowhere s s' :=
        (ih (fun m hm => hns m (by simp [hm])) hmoves.invariant).mono fun _ _ h => hmoves.trans h
      rw [conformances]
      refine (typeExpr_elsewhere ht hrun hinv (hns n (by simp)) hd hctx).bind ?_
      rintro ty s₁ ⟨hmoves, -⟩
      split
      · exact hrest hmoves
      · exact hrest hmoves
      · refine (complain_spec e _ _ s₁).bind fun _ s₂ h => ?_
        exact hrest (hmoves.trans (h.1.moves hmoves.invariant))

omit ht hrun in
theorem each_cons (j : Job) (js : List Job) :
    each run (j :: js) = (each run [j] >>= fun _ => each run js) := by
  simp [each]

omit ht hrun in
theorem each_append (js js' : List Job) :
    each run (js ++ js') = (each run js >>= fun _ => each run js') := by
  simp [each, List.forM_append]

/-- Where there is no rule the members are all that has to be checked. -/
theorem members_only_spec {ms : List NodeId} {s₁ : State}
    (hready : Job.Ready e.tree opened s (.decl d)) (hmoves : Moves e.tree opened nowhere s s₁)
    (hms : ms.Sublist (e.tree.children d)) (hrule : (e.tree.kind d).hasRule = false)
    (hmember : ∀ m ∈ ms, (Kind.isMember, m) ∈ (e.tree.kind d).parts)
    (hparts : ∀ p ∈ (e.tree.kind d).parts, p.2 ∈ ms ∨
      p.1 = Kind.isMemberwise ∨ p.1 = Kind.isType ∨ p.1 = Kind.isGeneric) :
    Ends (each run (ms.map .decl)) s₁ fun _ s' =>
      Moves e.tree opened (e.tree.Below d) s s' ∧ Finished e.tree d s' := by
  refine (members_spec ht hrun hms hmoves.invariant fun m hm => ?_).mono fun _ s' h => ?_
  · exact (hready.member ht (hmember m hm)).later ht hmoves fun _ hx => hx.2
  · exact ⟨hmoves.anywhere.trans h.1, .of_members ht hready.1 hrule hparts h.2⟩

section Forms

variable (hinv : Invariant e.tree opened s) (hready : Job.Ready e.tree opened s (.decl d))

include hinv hready

theorem product_spec {introducer : Site} {x : Name} {gs ms : List NodeId}
    {memberwise : Option NodeId}
    (hk : e.tree.kind d = .product introducer x gs ms memberwise) :
    Ends (each run (ms.map .decl ++ memberwise.toList.map .signature)) s fun _ s' =>
      Moves e.tree opened (e.tree.Below d) s s' ∧ Finished e.tree d s' := by
  rw [each_append]
  refine (members_only_spec ht hrun hready (.refl hinv) ?_ (by simp [hk, Kind.hasRule])
    (by simp +contextual [hk, Kind.parts]) ?_).bind ?_
  · rw [Tree.children, hk, Kind.children, List.append_assoc]
    exact (List.sublist_append_left _ _).trans (List.sublist_append_right _ _)
  · simp +contextual [hk, Kind.parts, or_imp, forall_and]
  · rintro - s₁ ⟨hmoves, hfinished⟩
    have hregion : ∀ x, ¬ ∃ j ∈ memberwise.toList.map Job.signature, j.Region e.tree x := by
      simp [Job.Region, nowhere]
    refine (each_spec ht hrun ?_ hmoves.invariant fun j hj => ?_).mono ?_
    · cases memberwise <;> simp
    · obtain ⟨i, hi, rfl⟩ := List.mem_map.mp hj
      have hmemberwise := ht.fits d (Kind.isMemberwise, i)
        (by simpa [hk, Kind.parts] using .inr (.inr (Option.mem_toList.mp hi)))
      obtain ⟨_, _, _, hinit⟩ := Kind.exists_of_isMemberwise hmemberwise
      exact ⟨by simp [hinit, Kind.isDeclaration], (hready.2.1.later hmoves).allNeed⟩
    · rintro - s₂ ⟨hmoves', -⟩
      exact ⟨hmoves.trans (hmoves'.widen fun x hx => absurd hx (hregion x)),
        hfinished.later ht hmoves'.effect fun x hx => hregion x hx.2⟩

theorem extension_spec {x : Site} {subject : NodeId} {ms : List NodeId}
    (hk : e.tree.kind d = .extension x subject ms) :
    Ends (each run (.subject d :: ms.map .decl)) s fun _ s' =>
      Moves e.tree opened (e.tree.Below d) s s' ∧ Finished e.tree d s' := by
  rw [each_cons]
  refine (each_single_spec ht hrun (j := .subject d) hinv trivial).bind fun _ s₁ h => ?_
  refine members_only_spec ht hrun hready h.1 (by simp [Tree.children, hk, Kind.children])
    (by simp [hk, Kind.hasRule]) (by simp +contextual [hk, Kind.parts]) ?_
  simp +contextual [hk, Kind.parts]

theorem conformance_spec {x : Site} {subject : NodeId} {ts ms : List NodeId}
    (hk : e.tree.kind d = .conformance x subject ts ms) :
    Ends (do
      each run [.subject d]
      let ctx ← contextOf e run d
      conformances e run ctx ts
      each run (ms.map .decl)) s fun _ s' =>
      Moves e.tree opened (e.tree.Below d) s s' ∧ Finished e.tree d s' := by
  refine (each_single_spec ht hrun (j := .subject d) hinv trivial).bind ?_
  rintro - s₁ ⟨hmoves₁, -⟩
  refine (contextOf_spec ht hrun d hmoves₁.invariant).bind ?_
  rintro ctx s₂ ⟨hmoves₂, hctx⟩
  refine (conformances_spec ht hrun hctx (d := d) ?_ ?_ hmoves₂.invariant).bind ?_
  · simp +contextual [hk, Kind.parts]
  · simp [hk, Kind.isBindingPattern]
  · intro _ s₃ hmoves₃
    refine members_only_spec ht hrun hready ((hmoves₁.trans hmoves₂).trans hmoves₃) ?_
      (by simp [hk, Kind.hasRule]) (by simp +contextual [hk, Kind.parts]) ?_
    · rw [Tree.children, hk, Kind.children]
      exact List.sublist_append_right _ _
    · simp +contextual [hk, Kind.parts, or_imp, forall_and]

theorem declared_binding_spec (hb : (e.tree.kind d).isBinding = true) :
    Ends (do
      let ctx ← contextOf e run d
      each run [.binding d ctx false]) s fun _ s' =>
      Moves e.tree opened (e.tree.Below d) s s' ∧ Finished e.tree d s' := by
  refine (contextOf_spec ht hrun d hinv).bind ?_
  rintro ctx s₁ ⟨hmoves, hctx⟩
  refine (each_single_spec ht hrun (j := .binding d ctx false) hmoves.invariant
    ⟨hb, hctx, (hready.2.1.later hmoves).allNeed⟩).mono ?_
  rintro - s₂ ⟨hmoves', a, hchecked⟩
  exact ⟨hmoves.anywhere.trans hmoves'.anywhere,
    .of_checked ht hb hmoves'.invariant hchecked (hready.2.1.not_opened d)⟩

theorem decl_spec :
    Ends (decl e run d) s fun _ s' =>
      Moves e.tree opened (e.tree.Below d) s s' ∧ Finished e.tree d s' := by
  have hd := hready.1
  rw [decl]
  split
  · next hk =>
      exact members_only_spec ht hrun hready (.refl hinv)
        (by simp [Tree.children, hk, Kind.children]) (by simp [hk, Kind.hasRule])
        (by simp [hk, Kind.parts])
        (by simp +contextual [hk, Kind.parts])
  · next hk => exact product_spec ht hrun hinv hready hk
  · next hk => exact extension_spec ht hrun hinv hready hk
  · next hk => exact conformance_spec ht hrun hinv hready hk
  · next hk =>
      exact members_only_spec ht hrun hready (.refl hinv)
        (by simp [Tree.children, hk, Kind.children]) (by simp [hk, Kind.hasRule])
        (by simp [hk, Kind.parts])
        (by simp +contextual [hk, Kind.parts])
  · next hk =>
      refine (each_single_spec ht hrun (j := .typeAlias d) hinv ⟨_, _, _, hk⟩).mono ?_
      rintro - s' ⟨hmoves, -⟩
      refine ⟨hmoves.anywhere, .of_members ht hd (by simp [hk, Kind.hasRule]) ?_
        (List.forall_mem_nil _)⟩
      simp [hk, Kind.parts]
  · next hk =>
      refine function_spec ht hrun Ty.output hready (by simp [hk, Kind.isBinding])
        (by simp [hk, Kind.hasRule]) (by simp [Tree.bodies, hk]) ?_ ?_ hinv
      · simp +contextual [hk, Kind.parts]
      · intro s' ty hty
        simp [Program.HasOutput, State.program, hk, hty]
  · next hk =>
      refine function_spec ht hrun Ty.output hready (by simp [hk, Kind.isBinding])
        (by simp [hk, Kind.hasRule]) (by simp [Tree.bodies, hk]) ?_ ?_ hinv
      · simp +contextual [hk, Kind.parts]
      · intro s' ty hty
        simp [Program.HasOutput, State.program, hk, hty]
  · next hk =>
      refine function_spec ht hrun (fun _ => .void) hready (by simp [hk, Kind.isBinding])
        (by simp [hk, Kind.hasRule]) (by simp [Tree.bodies, hk]) ?_ ?_ hinv
      · simp +contextual [hk, Kind.parts]
      · intro s' ty hty
        simp [Program.HasOutput, State.program, hk]
  · next hk =>
      refine function_spec ht hrun Ty.output hready (by simp [hk, Kind.isBinding])
        (by simp [hk, Kind.hasRule]) (by simp [Tree.bodies, hk]) ?_ ?_ hinv
      · simp +contextual [hk, Kind.parts]
      · intro s' ty hty
        simp [Program.HasOutput, State.program, hk, hty]
  · next hk => exact declared_binding_spec ht hrun hinv hready (by simp [hk, Kind.isBinding])
  · next hspace hproduct hextension hconformance htrait halias hfunction hmethod hinit hsubscript
        hbinding =>
      have hleaf : (e.tree.kind d).parts = [] ∧ (e.tree.kind d).hasRule = false := by
        cases hk : e.tree.kind d with
        | space => exact absurd hk (hspace _ _ _)
        | product => exact absurd hk (hproduct _ _ _ _ _)
        | extension => exact absurd hk (hextension _ _ _)
        | conformance => exact absurd hk (hconformance _ _ _ _)
        | trait => exact absurd hk (htrait _ _ _)
        | typeAlias => exact absurd hk (halias _ _ _)
        | function => exact absurd hk (hfunction _ _ _ _ _ _)
        | method => exact absurd hk (hmethod _ _ _ _ _ _)
        | init => exact absurd hk (hinit _ _ _ _)
        | subscript => exact absurd hk (hsubscript _ _ _ _ _)
        | binding => exact absurd hk (hbinding _ _)
        | associated => exact ⟨rfl, rfl⟩
        | operator => exact ⟨rfl, rfl⟩
        | _ => simp [hk, Kind.isMember] at hd
      exact .pure ⟨.refl hinv, .of_members ht hd hleaf.2 (by simp [hleaf.1])
        (List.forall_mem_nil _)⟩

end Forms

end Decls

end LanguageService.Check
