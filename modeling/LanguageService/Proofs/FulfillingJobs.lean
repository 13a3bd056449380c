import LanguageService.Proofs.FulfillingTypes

/-!
Every job is done thoroughly: whatever a name is looked up in has a type that does not say what its
members are, or the name refers to one, and no type that is written in a declaration is passed over.
-/
namespace LanguageService.Check

variable {e : Env} {run : Run} {s : State} {ctx : Context}

section Exprs

variable (ht : e.tree.WellFormed) (hrun : Thorough e run) (hds : e.decls.Sane e.tree)
  {n : NodeId}

theorem operand_proceeds (ht : e.tree.WellFormed) (hrun : Thorough e run) {c : NodeId}
    (hs : s.Orderly e.tree) (hctx : ctx.Rooted e.tree)
    (hc : (Kind.isExpr, c) ∈ (e.tree.kind n).parts)
    (hn : ∀ d x, e.tree.kind n ≠ .name (some d) x) :
    Proceeds e (run (.expr c ctx)) s fun a _ => a.rooted e.tree = true :=
  (hrun (.expr c ctx) s hs ⟨ht.fits n _ hc, hctx⟩).mono fun a s' h => by
    refine ⟨h.1.widen ?_, h.2.1⟩
    rintro q ⟨x, hk⟩
    have hq : c ∈ e.tree.children q := by simp [Tree.children, hk, Kind.children]
    obtain rfl := ht.parent_unique _ _ _ hq (Tree.child_of_part hc)
    exact hn c x hk

theorem operands_proceeds (ht : e.tree.WellFormed) (hrun : Thorough e run) {cs : List NodeId}
    (hs : s.Orderly e.tree) (hctx : ctx.Rooted e.tree)
    (hcs : ∀ c ∈ cs, (Kind.isExpr, c) ∈ (e.tree.kind n).parts)
    (hn : ∀ d x, e.tree.kind n ≠ .name (some d) x) :
    Proceeds e (cs.mapM fun c => run (.expr c ctx)) s fun as _ =>
      ∀ a ∈ as, a.rooted e.tree = true :=
  (Proceeds.mapM (P := fun _ _ => True) (fun _ _ _ _ => id) (fun c hc _ hs =>
    (operand_proceeds ht hrun hs hctx (hcs c hc) hn).mono fun _ _ _ h => ⟨h, trivial⟩) hs).mono
      fun _ _ _ h => h.1

theorem signature_job (hrun : Thorough e run) (hs : s.Orderly e.tree) {d : NodeId}
    (hd : (e.tree.kind d).hasSignature = true) :
    Proceeds e (run (.signature d)) s fun a s' => a.rooted e.tree = true ∧ s'.Holds d :=
  hrun.job (j := .signature d) hs hd fun _ => id

theorem arguments_proceeds (hs : s.Orderly e.tree) (n : NodeId) (args : List NodeId)
    (inputs found : List Ty) :
    Proceeds e (arguments e n args inputs found) s fun _ _ => True := by
  have heach (xs : List (NodeId × Ty × Ty)) {s : State} (hs : s.Orderly e.tree) :
      Proceeds e (checkEach e xs) s fun _ _ => True := by
    induction xs generalizing s with
    | nil => exact .pure hs trivial
    | cons x xs ih => exact (expect_proceeds hs _ _ _).bind fun _ _ h _ => ih h.orderly
  rw [arguments]
  split
  · exact (complain_proceeds hs _ _).mono fun _ _ _ _ => trivial
  · exact heach _ hs

include hrun

theorem refer_valueType_proceeds (hs : s.Orderly e.tree) (n : NodeId) (r : Reference) {d : NodeId}
    (hd : (e.tree.kind d).isDeclaration = true) :
    Proceeds e (refer n r >>= fun _ => valueType e run d) s fun a s' =>
      a.rooted e.tree = true ∧ s'.references.get? n ≠ none :=
  (refer_proceeds hs n r).bind fun _ _ hkeeps hrefers =>
    (valueType_proceeds hrun hkeeps.orderly hd).mono fun _ _ hkeeps' ha =>
      ⟨ha, hkeeps'.referred n hrefers⟩

include hds

theorem unqualified_proceeds (hs : s.Orderly e.tree) (hctx : ctx.Rooted e.tree) (x : Name) :
    Proceeds e (unqualified e run n x ctx) s fun a _ => a.rooted e.tree = true := by
  have hcomplain (c : Complaint) : Proceeds e (complain e x.site c >>= fun _ => pure Ty.error) s
      fun a _ => a.rooted e.tree = true :=
    (complain_error_proceeds hs _ c).mono fun _ _ _ h => h.1
  have hrefer {a : Ty} (r : Reference) (ha : a.rooted e.tree = true) :
      Proceeds e (refer n r >>= fun _ => pure a) s fun a _ => a.rooted e.tree = true :=
    (refer_proceeds hs n r).bind fun _ _ hkeeps _ => .pure hkeeps.orderly ha
  rw [unqualified]
  split
  · split
    · next ty hty => exact .pure hs (hctx.selfType ty hty)
    · exact hcomplain _
  · refine .get ?_
    split
    · next d hd =>
        obtain ⟨f, hf, hfind⟩ := List.exists_of_findSome?_eq_some hd
        obtain ⟨q, hq, rfl⟩ := Option.map_eq_some_iff.mp hfind
        have hsignature := hs.frames f hf q (List.mem_of_find?_eq_some hq)
        exact (refer_proceeds hs n _).bind fun _ _ hkeeps _ =>
          (signature_job hrun hkeeps.orderly hsignature).mono fun _ _ _ h => h.1
    · split
      · next d hd =>
          exact (refer_valueType_proceeds hrun hs n _
            (Kind.isDeclaration_of_declared (hds.lookup hd).1)).mono fun _ _ _ h => h.1
      · split
        · exact hrefer _ rfl
        · split
          · exact hrefer _ rfl
          · exact hcomplain _

theorem qualified_proceeds (hs : s.Orderly e.tree) {domain : Ty}
    (hdomain : domain.rooted e.tree = true) (x : Name) :
    Proceeds e (qualified e run n domain x) s fun a s' => a.rooted e.tree = true ∧
      (s'.references.get? n ≠ none ∨ ¬ s'.Clean ∨ s' = s ∧ domain.isOpaque e.tree = true) := by
  have hmember {d : NodeId} (r : Reference) (hd : (e.tree.kind d).isDeclaration = true) :
      Proceeds e (refer n r >>= fun _ => valueType e run d) s fun a s' => a.rooted e.tree = true ∧
        (s'.references.get? n ≠ none ∨ ¬ s'.Clean ∨ s' = s ∧ domain.isOpaque e.tree = true) :=
    (refer_valueType_proceeds hrun hs n r hd).mono fun _ _ _ h => ⟨h.1, .inl h.2⟩
  have hnone : Proceeds e (noMember e domain x) s fun a s' => a.rooted e.tree = true ∧
      (s'.references.get? n ≠ none ∨ ¬ s'.Clean ∨ s' = s ∧ domain.isOpaque e.tree = true) :=
    (complain_error_proceeds hs _ _).mono fun _ _ _ h => ⟨h.1, .inr (.inl h.2)⟩
  unfold qualified
  split
  · exact .pure hs ⟨rfl, .inr (.inr ⟨rfl, rfl⟩)⟩
  · split
    · next d _ m hm =>
        exact hmember _ (Kind.isDeclaration_of_declared (hds.named (List.mem_of_mem_head? hm)).1)
    · exact hnone
  · split
    · split
      · next m hm => exact hmember _ (Kind.isDeclaration_of_declared (hds.member hm).1)
      · exact hnone
    · next howner =>
        split
        · exact .pure hs ⟨rfl, .inr (.inr ⟨rfl, isOpaque_of_ownerOf hdomain howner⟩)⟩
        · exact hnone

theorem construction_proceeds (hs : s.Orderly e.tree) {callee d : NodeId} {args : List NodeId}
    {found : List Ty} :
    Proceeds e (construction e run n callee args d found) s fun a _ => a.rooted e.tree = true := by
  rw [construction]
  split
  · exact (complain_proceeds hs _ _).bind fun _ _ hkeeps _ => .pure hkeeps.orderly rfl
  · next i hi =>
      refine (refer_proceeds hs callee _).bind fun _ s₁ hkeeps _ => ?_
      refine (signature_job hrun hkeeps.orderly
        (hds.hasSignature_initializersOf (pick_mem hi))).bind fun ty s₂ hkeeps₂ _ => ?_
      dsimp only
      split
      · exact (arguments_proceeds hkeeps₂.orderly _ _ _ _).bind fun _ _ h _ => .pure h.orderly rfl
      · exact .pure hkeeps₂.orderly rfl

include ht

section Applied

variable {callee : NodeId} {args : List NodeId} (hs : s.Orderly e.tree)
  (hctx : ctx.Rooted e.tree) (hn : ∀ d x, e.tree.kind n ≠ .name (some d) x)
  (hcallee : (Kind.isExpr, callee) ∈ (e.tree.kind n).parts)
  (hargs : ∀ a ∈ args, (Kind.isExpr, a) ∈ (e.tree.kind n).parts)

include hs hctx hn hcallee hargs

theorem call_proceeds :
    Proceeds e (call e run n callee args ctx) s fun a _ => a.rooted e.tree = true := by
  rw [call]
  refine (operand_proceeds ht hrun hs hctx hcallee hn).bind fun ty s₁ hkeeps₁ hty => ?_
  refine (operands_proceeds ht hrun hkeeps₁.orderly hctx hargs hn).bind
    fun found s₂ hkeeps₂ _ => ?_
  have hcomplain (c : Complaint) :
      Proceeds e (complain e (e.tree.site callee) c >>= fun _ => pure Ty.error) s₂
        fun a _ => a.rooted e.tree = true :=
    (complain_error_proceeds hkeeps₂.orderly _ c).mono fun _ _ _ h => h.1
  split
  · exact construction_proceeds hrun hds hkeeps₂.orderly
  · exact .pure hkeeps₂.orderly rfl
  · exact hcomplain _
  · exact (arguments_proceeds hkeeps₂.orderly _ _ _ _).bind fun _ _ h _ =>
      .pure h.orderly (Ty.rooted_function.mp hty).2
  · exact .pure hkeeps₂.orderly rfl
  · exact hcomplain _

theorem subscript_proceeds :
    Proceeds e (subscript e run n callee args ctx) s fun a _ => a.rooted e.tree = true := by
  rw [subscript]
  refine (operand_proceeds ht hrun hs hctx hcallee hn).bind fun ty s₁ hkeeps₁ _ => ?_
  refine (operands_proceeds ht hrun hkeeps₁.orderly hctx hargs hn).bind
    fun found s₂ hkeeps₂ _ => ?_
  split
  · exact .pure hkeeps₂.orderly rfl
  · exact .pure hkeeps₂.orderly rfl
  · dsimp only
    split
    · exact (complain_error_proceeds hkeeps₂.orderly _ _).mono fun _ _ _ h => h.1
    · next i hi =>
        have hmem := pick_mem hi
        have hsubscript : (e.tree.kind i).hasSignature = true := by
          cases howner : ownerOf e.tree ty with
          | none => simp [howner] at hmem
          | some o => exact hds.hasSignature_subscriptsOf (o := o) (by simpa [howner] using hmem)
        refine (signature_job hrun hkeeps₂.orderly hsubscript).bind fun ty s₃ hkeeps₃ hty => ?_
        split
        · exact (arguments_proceeds hkeeps₃.orderly _ _ _ _).bind fun _ _ h _ =>
            .pure h.orderly (Ty.rooted_function.mp hty.1).2
        · exact .pure hkeeps₃.orderly rfl

end Applied

section Operators

variable (hletters : e.tree.Lettered) {l r : NodeId} {op : Name}
  (hn : e.tree.kind n = .binary l op r)

include hletters hn

omit ht in
theorem memberOperator_proceeds (hs : s.Orderly e.tree) (lhs rhs : Ty) :
    Proceeds e (memberOperator e run n op lhs rhs r) s fun a _ => a.rooted e.tree = true := by
  unfold memberOperator
  split
  · next d hd =>
      obtain ⟨o, -, hmember⟩ := Option.bind_eq_some_iff.mp hd
      have hsignature := hletters.hasSignature_of_operator hn (hds.member hmember).1
      refine (refer_proceeds hs n _).bind fun _ s₁ hkeeps₁ _ => ?_
      refine (signature_job hrun hkeeps₁.orderly hsignature).bind fun ty s₂ hkeeps₂ hty => ?_
      split
      · exact (expect_proceeds hkeeps₂.orderly _ _ _).bind fun _ _ h _ =>
          .pure h.orderly (Ty.rooted_function.mp hty.1).2
      · exact (complain_proceeds hkeeps₂.orderly _ _).bind fun _ _ h _ =>
          .pure h.orderly (Ty.rooted_function.mp hty.1).2
      · exact .pure hkeeps₂.orderly rfl
  · split
    · exact .pure hs rfl
    · exact (complain_error_proceeds hs _ _).mono fun _ _ _ h => h.1

theorem binary_proceeds (hs : s.Orderly e.tree) (hctx : ctx.Rooted e.tree) :
    Proceeds e (binary e run n l op r ctx) s fun a _ => a.rooted e.tree = true := by
  have hname (d : NodeId) (x : Name) : e.tree.kind n ≠ .name (some d) x := by simp [hn]
  rw [binary]
  refine (operand_proceeds ht hrun hs hctx (n := n) (by simp [hn, Kind.parts]) hname).bind
    fun lhs s₁ hkeeps₁ _ => ?_
  refine (operand_proceeds ht hrun hkeeps₁.orderly hctx (n := n) (by simp [hn, Kind.parts])
    hname).bind fun rhs s₂ hkeeps₂ _ => ?_
  split
  · exact .pure hkeeps₂.orderly rfl
  · exact .pure hkeeps₂.orderly rfl
  · split
    · exact (refer_proceeds hkeeps₂.orderly _ _).bind fun _ _ h _ => .pure h.orderly rfl
    · exact memberOperator_proceeds hrun hds hletters hn hkeeps₂.orderly _ _

end Operators

section Settling

variable (hexpr : (e.tree.kind n).isExpr = true)

include hexpr

omit hrun hds ht in
theorem fulfils_of_isExpr (hn : ∀ d x, e.tree.kind n ≠ .name (some d) x) :
    s.Fulfils e.tree n where
  named := by
    intro x hk
    simp [hk, Kind.isExpr] at hexpr
  written := by simp [Kind.writtenTypes_of_isExpr hexpr]
  parameters := by simp [Kind.parameters?_of_isExpr hexpr]
  qualified := fun d x hk => absurd hk (hn d x)

omit hrun hds in
theorem setExpr_ends {region : NodeId → Prop} {s₁ : State} {a : Ty} (hkeeps : Keeps e region s s₁)
    (hregion : ∀ q, region q → q = n) (ha : a.rooted e.tree = true)
    (hfulfils : s₁.Fulfils e.tree n) :
    Ends (setType n a >>= fun _ => pure a) s₁ fun a s' => Keeps e (Qualified e.tree n) s s' ∧
      a.rooted e.tree = true ∧ s'.types.get? n = some a := by
  refine .bind (.modify (Q := fun _ s' => s' = _) rfl) ?_
  rintro - s' rfl
  have hset := Keeps.setType hkeeps.orderly ha hfulfils
  have hanswers : State.Answers e { s₁ with types := s₁.types.insert n a } n := by
    refine ⟨fun _ => hfulfils.later hset.toAccrues fun d x hk => ?_, fun m hm => ?_,
      fun p i introducer how sub b hb => ?_⟩
    · have hlt := ht.child_lt n d (by simp [Tree.children, hk, Kind.children])
      exact (Table.get?_insert _ _ _ _).trans (if_neg (Nat.ne_of_gt hlt))
    · cases hk : e.tree.kind n <;> simp_all [Kind.subject?, Kind.isExpr]
    · simp [hb, Kind.isExpr] at hexpr
  have hboth : Keeps e (fun q => region q ∨ Qualified e.tree n q) s _ :=
    (hkeeps.widen fun q hq => .inl hq).trans (hset.widen fun q hq => .inr hq)
  refine .pure ⟨hboth.shrink fun q hq => hq.symm.imp_right fun hq => ?_, ha, by simp⟩
  rw [hregion q hq]
  exact hanswers

include hrun hds ht

theorem name_ends {d : NodeId} {x : Name} (hs : s.Orderly e.tree) (hctx : ctx.Rooted e.tree)
    (hk : e.tree.kind n = .name (some d) x) :
    Ends (run (.expr d ctx) >>= fun domain => qualified e run n domain x >>= fun a =>
      setType n a >>= fun _ => pure a) s fun a s' => Keeps e (Qualified e.tree n) s s' ∧
        a.rooted e.tree = true ∧ s'.types.get? n = some a := by
  have hd : (Kind.isExpr, d) ∈ (e.tree.kind n).parts := by simp [hk, Kind.parts]
  refine Ends.bind (hrun (.expr d ctx) s hs ⟨ht.fits n _ hd, hctx⟩) ?_
  rintro domain s₁ ⟨hkeeps₁, hdomain, -, htype⟩
  refine Ends.bind (qualified_proceeds hrun hds hkeeps₁.orderly hdomain x) ?_
  rintro a s₂ ⟨hkeeps₂, ha, hrests⟩
  refine setExpr_ends ht hexpr (hkeeps₁.trans hkeeps₂.anywhere) ?_ ha ?_
  · rintro q ⟨y, hq⟩
    have hchild : d ∈ e.tree.children q := by simp [Tree.children, hq, Kind.children]
    exact ht.parent_unique _ _ _ hchild (Tree.child_of_part hd)
  · refine ⟨by simp [hk], by simp [hk, Kind.writtenTypes], by simp [hk, Kind.parameters?], ?_⟩
    intro c y hk'
    obtain ⟨rfl, -⟩ : c = d ∧ y = x := by
      rw [hk] at hk'
      simpa [eq_comm] using hk'
    refine hrests.imp_right (.imp_right ?_)
    rintro ⟨rfl, hopaque⟩
    exact ⟨domain, htype c ctx rfl, hopaque⟩

theorem expr_ends (hletters : e.tree.Lettered) (hs : s.Orderly e.tree)
    (hctx : ctx.Rooted e.tree) :
    Ends (expr e run n ctx) s fun a s' => Keeps e (Qualified e.tree n) s s' ∧
      a.rooted e.tree = true ∧ s'.types.get? n = some a := by
  have hset {m : CheckM Ty} (hn : ∀ d x, e.tree.kind n ≠ .name (some d) x)
      (hm : Proceeds e m s fun a _ => a.rooted e.tree = true) :
      Ends (m >>= fun a => setType n a >>= fun _ => pure a) s fun a s' =>
        Keeps e (Qualified e.tree n) s s' ∧ a.rooted e.tree = true ∧
          s'.types.get? n = some a :=
    Ends.bind hm fun a s₁ h => setExpr_ends ht hexpr h.1 (fun _ hq => hq.elim) h.2
      (fulfils_of_isExpr hexpr hn)
  have hargs {callee : NodeId} {args : List (Option Name × NodeId)}
      (hparts : (e.tree.kind n).parts =
        (Kind.isExpr, callee) :: args.map fun a => (Kind.isExpr, a.2)) :
      ∀ a ∈ args.map (·.2), (Kind.isExpr, a) ∈ (e.tree.kind n).parts := by
    intro a ha
    obtain ⟨b, hb, rfl⟩ := List.mem_map.mp ha
    rw [hparts]
    exact List.mem_cons_of_mem _ (List.mem_map.mpr ⟨b, hb, rfl⟩)
  rw [expr]
  split
  · next hk => exact hset (by simp [hk]) (.pure hs rfl)
  · next hk => exact hset (by simp [hk]) (.pure hs rfl)
  · next hk => exact hset (by simp [hk]) (.pure hs rfl)
  · next hk => exact hset (by simp [hk]) (.pure hs rfl)
  · next hk => exact name_ends ht hrun hds hexpr hs hctx hk
  · next hk => exact hset (by simp [hk]) (unqualified_proceeds hrun hds hs hctx _)
  · next hk =>
      exact hset (by simp [hk]) (call_proceeds ht hrun hds hs hctx (by simp [hk])
        (by simp [hk, Kind.parts]) (hargs (by rw [hk, Kind.parts])))
  · next hk =>
      exact hset (by simp [hk]) (subscript_proceeds ht hrun hds hs hctx (by simp [hk])
        (by simp [hk, Kind.parts]) (hargs (by rw [hk, Kind.parts])))
  · next hk => exact hset (by simp [hk]) (binary_proceeds ht hrun hds hletters hk hs hctx)
  · next hk =>
      rw [← bind_assoc]
      refine hset (by simp [hk]) ((operands_proceeds ht hrun (n := n) hs hctx
        (by simp [hk, Kind.parts]) (by simp [hk])).bind fun _ _ hkeeps h => ?_)
      exact .pure hkeeps.orderly (Ty.rooted_ofElements h)
  · next hname _ _ _ _ _ =>
      refine hset (fun d x hk => ?_) (.pure hs rfl)
      exact hname d x hk

end Settling

end Exprs

end LanguageService.Check
