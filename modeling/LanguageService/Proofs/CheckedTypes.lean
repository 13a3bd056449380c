import LanguageService.Proofs.CheckJobs

namespace LanguageService.Check

variable {e : Env} {run : Run} {opened : NodeId → Prop} {s : State}

theorem Context.Plain.withSelf {ctx : Context} (h : ctx.Plain e.tree) {ty : Ty}
    (hty : ty.plain e.tree = true) :
    Context.Plain { ctx with selfType := some (ctx.selfType.getD ty) } e.tree where
  selfType := by
    intro ty' hty'
    cases hself : ctx.selfType with
    | none =>
        rw [hself] at hty'
        cases hty'
        exact hty
    | some known =>
        rw [hself] at hty'
        cases hty'
        exact h.selfType known hself
  generics := h.generics

theorem Context.Plain.withGenerics {ctx : Context} (h : ctx.Plain e.tree) (ht : e.tree.WellFormed)
    {d : NodeId} {gs : List NodeId} (hgs : ∀ g ∈ gs, (Kind.isGeneric, g) ∈ (e.tree.kind d).parts) :
    Context.Plain { ctx with generics := ctx.generics ++ gs } e.tree where
  selfType := h.selfType
  generics := List.forall_mem_append.mpr ⟨h.generics, fun g hg => ht.fits d _ (hgs g hg)⟩

section Contexts

variable (ht : e.tree.WellFormed) (hrun : Obeys e.tree run)

include hrun

theorem subjectSelf_spec {ctx : Context} (d : NodeId) (hctx : ctx.Plain e.tree)
    (hinv : Invariant e.tree opened s) :
    Ends (extendContext.subjectSelf run ctx d) s fun ctx' s' =>
      Moves e.tree opened nowhere s s' ∧ ctx'.Plain e.tree := by
  rw [extendContext.subjectSelf]
  split
  · exact .pure ⟨.refl hinv, hctx⟩
  · refine (hrun opened (.subject d) s hinv trivial).bind ?_
    rintro ty s₁ ⟨hmoves, hplain⟩
    refine .pure ⟨hmoves, fun ty' hty' => ?_, hctx.generics⟩
    cases hty'
    exact hplain

include ht

theorem extendContext_spec {ctx : Context} (d : NodeId) (hctx : ctx.Plain e.tree)
    (hinv : Invariant e.tree opened s) :
    Ends (extendContext e run ctx d) s fun ctx' s' =>
      Moves e.tree opened nowhere s s' ∧ ctx'.Plain e.tree := by
  rw [extendContext]
  split
  · next hk =>
      exact .pure ⟨.refl hinv, hctx.withGenerics ht (d := d) (by simp +contextual [hk, Kind.parts])⟩
  · next hk =>
      exact .pure ⟨.refl hinv, hctx.withGenerics ht (d := d) (by simp +contextual [hk, Kind.parts])⟩
  · next hk =>
      exact .pure ⟨.refl hinv, (hctx.withSelf (Ty.plain_product hk)).withGenerics ht (d := d)
        (by simp +contextual [hk, Kind.parts])⟩
  · exact .pure ⟨.refl hinv, hctx.withSelf rfl⟩
  · exact subjectSelf_spec hrun d hctx hinv
  · exact subjectSelf_spec hrun d hctx hinv
  · exact .pure ⟨.refl hinv, hctx⟩

theorem extendContexts_spec (ds : List NodeId) {ctx : Context} (hctx : ctx.Plain e.tree)
    (hinv : Invariant e.tree opened s) :
    Ends (ds.foldlM (extendContext e run) ctx) s fun ctx' s' =>
      Moves e.tree opened nowhere s s' ∧ ctx'.Plain e.tree := by
  induction ds generalizing ctx s with
  | nil => exact .pure ⟨.refl hinv, hctx⟩
  | cons d ds ih =>
      rw [List.foldlM_cons]
      refine (extendContext_spec ht hrun d hctx hinv).bind ?_
      rintro ctx₁ s₁ ⟨hmoves, hctx₁⟩
      refine (ih hctx₁ hmoves.invariant).mono ?_
      rintro ctx' s' ⟨hmoves', hctx'⟩
      exact ⟨hmoves.trans hmoves', hctx'⟩

theorem contextOf_spec (d : NodeId) (hinv : Invariant e.tree opened s) :
    Ends (contextOf e run d) s fun ctx s' =>
      Moves e.tree opened nowhere s s' ∧ ctx.Plain e.tree := by
  refine extendContexts_spec ht hrun _ ⟨fun ty hty => ?_, List.forall_mem_nil _⟩ hinv
  cases hty

end Contexts

section Types

variable (ht : e.tree.WellFormed) (hds : e.decls.Sane e.tree) (hrun : Obeys e.tree run)

include ht hrun

theorem typeExpr_elsewhere {n p : NodeId} {ctx : Context} (hinv : Invariant e.tree opened s)
    (hn : (Kind.isType, n) ∈ (e.tree.kind p).parts)
    (hp : (e.tree.kind p).isBindingPattern = false) (hctx : ctx.Plain e.tree) :
    Ends (run (.typeExpr n ctx)) s fun a s' =>
      Moves e.tree opened nowhere s s' ∧ a.plain e.tree = true := by
  have htype := ht.fits p _ hn
  have hascription : ¬ e.tree.IsAscription n := by
    intro ha
    simp [ha.parent ht (Tree.child_of_part hn)] at hp
  refine (hrun opened (.typeExpr n ctx) s hinv
    ⟨htype, hctx, fun ha => absurd ha hascription⟩).mono ?_
  rintro a s' ⟨hmoves, hplain, -⟩
  refine ⟨hmoves.within ?_, hplain⟩
  rintro x hx - rfl
  rcases hx with (hexpr | ha) | hvar
  · exact Kind.not_isExpr_of_isType htype hexpr
  · exact hascription ha
  · simp [Kind.isVar_of_isType htype] at hvar

theorem typeExprIn_spec (d : NodeId) {n p : NodeId} (hinv : Invariant e.tree opened s)
    (hn : (Kind.isType, n) ∈ (e.tree.kind p).parts)
    (hp : (e.tree.kind p).isBindingPattern = false) :
    Ends (contextOf e run d >>= fun ctx => run (.typeExpr n ctx)) s fun a s' =>
      Moves e.tree opened nowhere s s' ∧ a.plain e.tree = true := by
  refine (contextOf_spec ht hrun d hinv).bind ?_
  rintro ctx s₁ ⟨hmoves, hctx⟩
  refine (typeExpr_elsewhere ht hrun hmoves.invariant hn hp hctx).mono ?_
  rintro a s' ⟨hmoves', hplain⟩
  exact ⟨hmoves.trans hmoves', hplain⟩

theorem resolve_spec {ext n : NodeId} (hinv : Invariant e.tree opened s)
    (hn : (Kind.isType, n) ∈ (e.tree.kind ext).parts)
    (hext : (e.tree.kind ext).isBindingPattern = false) :
    Ends (subject.resolve e run ext n) s fun a s' =>
      Moves e.tree opened nowhere s s' ∧ a.plain e.tree = true := by
  have hremember {a : Ty} {s₁ : State} (hmoves : Moves e.tree opened nowhere s s₁)
      (hplain : a.plain e.tree = true) :
      Ends (do
        modify fun s => { s with subjects := s.subjects.insert ext a }
        pure a) s₁ fun a s' => Moves e.tree opened nowhere s s' ∧ a.plain e.tree = true := by
    have hinv₁ := hmoves.invariant
    refine .bind (.modify (Q := fun _ s' => Moves e.tree opened nowhere s s') ?_)
      fun _ _ hmoves' => .pure ⟨hmoves', hplain⟩
    refine hmoves.trans ⟨⟨id, fun _ _ _ h _ => h, fun _ => id, fun _ _ _ _ => rfl,
      fun _ _ _ _ => rfl, fun _ _ _ _ => id, .refl _⟩, ⟨fun _ => rfl, fun _ _ _ _ => rfl⟩,
      hinv₁.done, hinv₁.bound, hinv₁.untouched, hinv₁.frames, hinv₁.proper, hinv₁.plain, ?_,
      hinv₁.metatypes, hinv₁.points, hinv₁.inText, hinv₁.entered, hinv₁.stored, hinv₁.inputs⟩
    intro d ty hd
    rw [Table.get?_insert] at hd
    split at hd
    · cases hd
      exact hplain
    · exact hinv₁.subjects d ty hd
  rw [subject.resolve]
  split
  · rw [← bind_assoc]
    exact (typeExprIn_spec ht hrun _ hinv hn hext).bind fun a s₁ h => hremember h.1 h.2
  · rw [pure_bind]
    exact hremember (.refl hinv) rfl

theorem subject_spec (ext : NodeId) (hinv : Invariant e.tree opened s) :
    Ends (subject e run ext) s fun a s' =>
      Moves e.tree opened nowhere s s' ∧ a.plain e.tree = true := by
  rw [subject]
  refine .get ?_
  split
  · next ty hty => exact .pure ⟨.refl hinv, hinv.subjects ext _ hty⟩
  · split
    · next hk =>
        exact resolve_spec ht hrun hinv (by simp [hk, Kind.parts])
          (by simp [hk, Kind.isBindingPattern])
    · next hk =>
        exact resolve_spec ht hrun hinv (by simp [hk, Kind.parts])
          (by simp [hk, Kind.isBindingPattern])
    · exact .pure ⟨.refl hinv, rfl⟩

omit ht in
theorem typeDenoted_spec {d : NodeId} {find : CheckM Ty} (hinv : Invariant e.tree opened s)
    (h : typeDenoted e run d = some find) :
    Ends find s fun a s' => Moves e.tree opened nowhere s s' ∧ a.plain e.tree = true := by
  rw [typeDenoted] at h
  split at h
  · next hk =>
      cases h
      exact .pure ⟨.refl hinv, Ty.plain_product hk⟩
  · cases h
    exact .pure ⟨.refl hinv, rfl⟩
  · cases h
    exact .pure ⟨.refl hinv, rfl⟩
  · cases h
    exact .pure ⟨.refl hinv, rfl⟩
  · next hk =>
      cases h
      refine (hrun opened (.typeAlias d) s hinv ⟨_, _, _, hk⟩).mono ?_
      rintro a s' ⟨hmoves, -, hplain, -⟩
      exact ⟨hmoves, hplain⟩
  · cases h

include hds in
theorem typeName_spec {n : NodeId} {ctx : Context} {x : Name}
    (hk : e.tree.kind n = .nameType x) (hinv : Invariant e.tree opened s)
    (hready : Job.Ready e.tree opened s (.typeExpr n ctx)) :
    Ends (typeName e run n x ctx) s fun a s' =>
      Moves e.tree opened (· = n) s s' ∧ a.plain e.tree = true := by
  obtain ⟨hn, hctx, hopens⟩ := hready
  have hsteady : e.tree.IsSteady n → s.Opens e.tree opened n := by
    rintro (hexpr | ha)
    · exact absurd hexpr (Kind.not_isExpr_of_isType hn)
    · exact hopens ha
  have hcomplain (site : Site) (c : Complaint) :
      Ends (complain e site c >>= fun _ => pure Ty.error) s fun a s' =>
        Moves e.tree opened (· = n) s s' ∧ a.plain e.tree = true :=
    (complain_spec e site c s).bind fun _ _ h => .pure ⟨h.1.moves hinv, rfl⟩
  have hspelled : (e.tree.kind n).spelled = some x.text := by rw [hk]; rfl
  have hrefer {s₁ : State} {a : Ty} {r : Reference} (hpoints : (s₁.program e.tree).Points n r)
      (htext : r.InText e.tree) (hmoves : Moves e.tree opened nowhere s s₁)
      (ha : a.plain e.tree = true) :
      Ends (refer n r >>= fun _ => pure a) s₁ fun a s' =>
        Moves e.tree opened (· = n) s s' ∧ a.plain e.tree = true := by
    refine .bind (.modify (Q := fun _ s' => Moves e.tree opened (· = n) s s') ?_)
      fun _ _ h => .pure ⟨h, ha⟩
    exact hmoves.anywhere.trans (moves_refer ht hmoves.invariant hpoints htext
      (.insert_of_not_isExpr (by simpa using Kind.not_isExpr_of_isType hn))
      fun hx => (hsteady hx).later hmoves.effect)
  rw [typeName]
  split
  · split
    · next ty hself => exact .pure ⟨.refl hinv, hctx.selfType ty hself⟩
    · exact hcomplain _ _
  · dsimp only
    split
    · next g hg =>
        refine hrefer ⟨x.text, hspelled, ?_⟩
          (Tree.not_isImplied ht (Kind.isParameter_of_isGeneric
            (hctx.generics g (List.mem_of_find?_eq_some hg)))) (.refl hinv) rfl
        have hnamed := List.find?_some hg
        split at hnamed
        · next y hy =>
            change (e.tree.kind g).declared = some x.text
            rw [Kind.declared, hy, Option.map_some, eq_of_beq hnamed]
        · cases hnamed
    · split
      · next b hb =>
          refine hrefer ⟨?_, ?_⟩ trivial (.refl hinv) rfl
          · rw [Builtin.word_of_ofWord hb]
            exact hspelled
          · change (e.tree.kind n).Offers _
            rw [hk, Kind.Offers, Builtin.ofWord_word]
            rfl
      · split
        · exact hcomplain _ _
        · next d hd =>
            split
            · exact hcomplain _ _
            · next find hfind =>
                refine (typeDenoted_spec hrun hinv hfind).bind ?_
                rintro a s₁ ⟨hmoves, hplain⟩
                obtain ⟨hdeclared, hparameter⟩ := hds.lookup hd
                exact hrefer ⟨x.text, hspelled, hdeclared⟩ (Tree.not_isImplied ht hparameter)
                  hmoves hplain

theorem typeExprs_spec {ns : List NodeId} {p : NodeId} {ctx : Context} (hctx : ctx.Plain e.tree)
    (hns : ∀ n ∈ ns, (Kind.isType, n) ∈ (e.tree.kind p).parts)
    (hp : (e.tree.kind p).isBindingPattern = false) (hinv : Invariant e.tree opened s) :
    Ends (ns.mapM fun n => run (.typeExpr n ctx)) s fun as s' =>
      Moves e.tree opened nowhere s s' ∧ ∀ a ∈ as, a.plain e.tree = true := by
  induction ns generalizing s with
  | nil => exact .pure ⟨.refl hinv, by simp⟩
  | cons n ns ih =>
      rw [List.mapM_cons]
      refine (typeExpr_elsewhere ht hrun hinv (hns n (by simp)) hp hctx).bind ?_
      rintro a s₁ ⟨hmoves, hplain⟩
      refine (ih (fun m hm => hns m (by simp [hm])) hmoves.invariant).bind ?_
      rintro as s₂ ⟨hmoves', hplain'⟩
      refine .pure ⟨hmoves.trans hmoves', ?_⟩
      rintro b (_ | ⟨_, hb⟩)
      · exact hplain
      · exact hplain' b hb

include hds in
theorem typeExpr_spec {n : NodeId} {ctx : Context} (hinv : Invariant e.tree opened s)
    (hready : Job.Ready e.tree opened s (.typeExpr n ctx)) :
    Ends (typeExpr e run n ctx) s fun a s' =>
      Moves e.tree opened (· = n) s s' ∧ Job.Result e.tree a s' (.typeExpr n ctx) := by
  obtain ⟨hn, hctx, hopens⟩ := id hready
  have hdecl : (e.tree.kind n).isDeclaration = false := by
    cases hk : e.tree.kind n <;> simp [hk, Kind.isType, Kind.isDeclaration] at hn ⊢
  have hopen : e.tree.IsSteady n → ∀ b, (e.tree.kind b).isBinding = true →
      e.tree.Below b n → opened b := by
    rintro (hexpr | ha) b hb hbelow
    · exact absurd hexpr (Kind.not_isExpr_of_isType hn)
    · exact (hopens ha b hb hbelow).2
  have hwrite {a : Ty} {s₁ : State} (hmoves : Moves e.tree opened (· = n) s s₁)
      (hplain : a.plain e.tree = true) :
      Ends (setType n a >>= fun _ => pure a) s₁ fun a s' =>
        Moves e.tree opened (· = n) s s' ∧ Job.Result e.tree a s' (.typeExpr n ctx) := by
    have hmoves' := hmoves.trans
      (moves_setType ht hmoves.invariant hdecl (Ty.proper_of_plain hplain) hopen
        fun hexpr => absurd hexpr (Kind.not_isExpr_of_isType hn))
    refine .bind (.modify (Q := fun _ s' => s' = _) rfl) ?_
    rintro - s' rfl
    refine .pure ⟨hmoves', hplain, fun ha => ⟨?_, by simp⟩⟩
    exact (hopens ha).guards.later hmoves'.effect
  rw [typeExpr]
  split
  · next x hk => exact (typeName_spec ht hds hrun hk hinv hready).bind fun a s₁ h => hwrite h.1 h.2
  · next es hk =>
      refine (typeExprs_spec ht hrun hctx (p := n) ?_ ?_ hinv).bind ?_
      · intro c hc
        simp [hk, Kind.parts, hc]
      · simp [hk, Kind.isBindingPattern]
      · rintro as s₁ ⟨hmoves, hplain⟩
        rw [pure_bind]
        exact hwrite hmoves.anywhere
          (Ty.plain_ofElements fun a ha => Ty.proper_of_plain (hplain a ha))
  · rw [pure_bind]
    exact hwrite (.refl hinv) rfl

end Types

section WorkingOut

theorem not_isSteady {t : Tree} (ht : t.WellFormed) {d : NodeId}
    (hd : (t.kind d).isDeclaration = true) : ¬ t.IsSteady d := by
  rintro (hexpr | ha)
  · cases hk : t.kind d <;> simp [hk, Kind.isDeclaration, Kind.isExpr] at hd hexpr
  · have htype := ha.isType ht
    cases hk : t.kind d <;> simp [hk, Kind.isDeclaration, Kind.isType] at hd htype

theorem effect_inProgress {t : Tree} {region : NodeId → Prop} (s : State) (p : Table Unit) :
    Effect t region s { s with inProgress := p } :=
  ⟨id, fun _ _ _ h _ => h, fun _ => id, fun _ _ _ _ => rfl, fun _ _ _ _ => rfl,
    fun _ _ _ _ => id, .refl _⟩

theorem Invariant.inProgress {t : Tree} (hinv : Invariant t opened s) (p : Table Unit) :
    Invariant t opened { s with inProgress := p } :=
  ⟨hinv.done, hinv.bound, hinv.untouched, hinv.frames, hinv.proper, hinv.plain, hinv.subjects,
    hinv.metatypes, hinv.points, hinv.inText, hinv.entered, hinv.stored, hinv.inputs⟩

/-- What has to be known of the type that has been worked out for a declaration. -/
structure WorkedOut (t : Tree) (opened : NodeId → Prop) (d : NodeId) (ty : Ty) (s : State) :
    Prop where
  proper : ty.proper t = true
  plain : ∀ x y k, t.kind d = .typeAlias x y k → ty.plain t = true
  var : (t.kind d).isVar = true →
    s.types.get? d = some ty ∨ s.types.get? d = none ∧ ty = .error
  entered : ∀ b, t.BindsOutside b d → s.IsChecked b
  stored : ∀ v b, t.Sets d v b →
    t.IsCircular s.references d ∨ s.types.get? v = some ty ∧ ¬ opened b
  inputs : ∀ introducer ps body synthesized, t.kind d = .init introducer ps body synthesized →
    ∃ ts output, ty = .function ts output ∧ s.Takes t ps ts

theorem WorkedOut.of_kind {t : Tree} {d : NodeId} {ty : Ty} (hproper : ty.proper t = true)
    (hplain : ∀ x y k, t.kind d = .typeAlias x y k → ty.plain t = true)
    (hvar : (t.kind d).isVar = false) (hunset : ∀ x, t.kind d ≠ .parameter x none)
    (hinit : ∀ introducer ps body synthesized, t.kind d ≠ .init introducer ps body synthesized) :
    WorkedOut t opened d ty s where
  proper := hproper
  plain := hplain
  var := by simp [hvar]
  entered := by
    intro b hb
    simp [hb.isVar] at hvar
  stored := by
    intro v b hsets
    obtain ⟨x, hk⟩ := hsets.unannotated
    exact absurd hk (hunset x)
  inputs := fun _ _ _ _ hk => absurd hk (hinit _ _ _ _)

theorem moves_workedOut {t : Tree} {s₁ : State} {d : NodeId} {ty : Ty} (ht : t.WellFormed)
    (hd : (t.kind d).isDeclaration = true) (hnew : s.types.get? d = none)
    (hidle : s.inProgress.get? d = none)
    (hmoves : Moves t opened nowhere { s with inProgress := s.inProgress.insert d () } s₁)
    (hty : WorkedOut t opened d ty s₁) :
    Moves t opened nowhere s
      { s₁ with inProgress := s₁.inProgress.erase d, types := s₁.types.insert d ty } := by
  have htype : s₁.types.get? d = some ty ∨
      s₁.types.get? d = none ∧ ((t.kind d).isVar = true → ty = .error) := by
    by_cases hv : (t.kind d).isVar = true
    · exact (hty.var hv).imp_right fun h => ⟨h.1, fun _ => h.2⟩
    · right
      rw [hmoves.resumes.busy d hd (by simpa using hv) (by simp [Table.contains])]
      exact ⟨hnew, fun h => absurd h hv⟩
  have hwrite : Effect t nowhere { s₁ with inProgress := s₁.inProgress.erase d }
      { s₁ with inProgress := s₁.inProgress.erase d, types := s₁.types.insert d ty } := by
    refine .setType ?_ (fun hsteady => absurd hsteady (not_isSteady ht hd)) ?_
    · intro old _ hold _
      rcases htype with h | h
      · exact Option.some.inj (h.symm.trans hold)
      · exact absurd (h.1.symm.trans hold) (by simp)
    · intro hv _ hsoft
      rcases htype with h | h
      · rcases hsoft with hnone | herror
        · exact absurd (h.symm.trans hnone) (by simp)
        · exact Option.some.inj (h.symm.trans herror)
      · exact h.2 hv
  refine ⟨?_, ⟨?_, ?_⟩, ?_⟩
  · exact (effect_inProgress s _).trans
      (hmoves.effect.trans ((effect_inProgress s₁ _).trans hwrite))
  · intro i
    rw [Table.get?_erase]
    split
    · next heq => rw [← heq, hidle]
    · next hne => rw [hmoves.resumes.inProgress, Table.get?_insert, if_neg hne]
  · intro i hi hv hbusy
    have hne : d ≠ i := by
      rintro rfl
      simp [Table.contains, hidle] at hbusy
    rw [Table.get?_insert, if_neg hne]
    exact hmoves.resumes.busy i hi hv (by simpa [Table.contains, hne] using hbusy)
  · refine (hmoves.invariant.inProgress _).setType ht hwrite (fun _ _ hx => hx.elim) hty.proper
      hty.plain ?_ (fun hexpr => absurd (.inl hexpr) (not_isSteady ht hd)) ?_ hty.stored hty.inputs
    · intro hv herror
      rcases hty.var hv with h | h
      · refine hmoves.invariant.bound d hv ?_
        rintro (hnone | herror')
        · exact absurd (h.symm.trans hnone) (by simp)
        · exact herror (Option.some.inj (h.symm.trans herror'))
      · exact absurd h.2 herror
    · refine fun b hb => ⟨hty.entered b hb, fun old hold _ => ?_⟩
      rcases htype with h | h
      · exact Option.some.inj (h.symm.trans hold)
      · exact absurd (h.1.symm.trans hold) (by simp)

theorem start_spec (d : NodeId) (s : State) :
    Ends (start d) s fun fresh s' =>
      (fresh = true → s.inProgress.get? d = none ∧
        s' = { s with inProgress := s.inProgress.insert d () }) ∧
      (fresh = false → s.inProgress.get? d ≠ none ∧ s' = s) := by
  rw [start]
  refine .get ?_
  split
  · next hbusy =>
      refine .pure ⟨by simp, fun _ => ⟨?_, rfl⟩⟩
      intro hnone
      simp [Table.contains, hnone] at hbusy
  · next hidle =>
      refine .bind (.modify (Q := fun _ s' => s' = _) rfl) ?_
      rintro - s' rfl
      exact .pure ⟨fun _ => ⟨by simpa [Table.contains] using hidle, rfl⟩, by simp⟩

theorem withFrames_spec {α : Type} {t : Tree} {region : NodeId → Prop} {frames : List Frame}
    {m : CheckM α} {Q : α → State → Prop} (hinv : Invariant t opened s)
    (hframes : ∀ f ∈ frames, ∀ p ∈ f, IsLocal t p)
    (hm : ∀ s₁, Moves t opened nowhere s s₁ →
      Ends m s₁ fun a s₂ => Moves t opened region s₁ s₂ ∧ Q a s₂) :
    Ends (withFrames frames m) s fun a s' =>
      ∃ s₂, Moves t opened region s s₂ ∧ Q a s₂ ∧ Moves t opened nowhere s₂ s' := by
  have hmoves : Moves t opened nowhere s { s with frames := frames } := moves_frames hinv hframes
  rw [withFrames]
  refine .get (.bind (.modify (Q := fun _ s' => s' = _) rfl) ?_)
  rintro - s₁ rfl
  refine (hm _ hmoves).bind ?_
  rintro a s₂ ⟨hmoves', hresult⟩
  refine .bind (.modify (Q := fun _ s' => s' = _) rfl) ?_
  rintro - s' rfl
  exact .pure ⟨s₂, hmoves.anywhere.trans hmoves', hresult,
    moves_frames hmoves'.invariant hinv.frames⟩

theorem storedFor_isDeclaration (hds : e.decls.Sane e.tree) {p v : NodeId}
    (h : storedFor e p = some v) : (e.tree.kind v).isDeclaration = true := by
  obtain ⟨i, -, h⟩ := Option.bind_eq_some_iff.mp h
  split at h
  · obtain ⟨owner, -, h⟩ := Option.bind_eq_some_iff.mp h
    obtain ⟨k, -, h⟩ := Option.bind_eq_some_iff.mp h
    exact hds.storedOf (List.mem_of_getElem? h)
  · cases h

/-- The signature that is worked out for a declaration is recorded, unless it was already being
worked out. -/
def Records (run : Run) : Prop :=
  ∀ d s a s', run (.signature d) s = some (a, s') → s.inProgress.get? d = none →
    s'.types.get? d = some a

theorem signature_records (d : NodeId) (hidle : s.inProgress.get? d = none) :
    Ends (signature e run d) s fun a s' => s'.types.get? d = some a := by
  rw [signature]
  refine .typeOf ?_
  split
  · next ty hty => exact .pure hty
  · refine (start_spec d s).bind ?_
    rintro fresh s₁ ⟨-, hbusy⟩
    split
    · refine .bind (R := fun _ _ => True) (fun _ _ _ => trivial) fun ty s₂ _ => ?_
      refine .bind (R := fun _ _ => True) (fun _ _ _ => trivial) fun _ s₃ _ => ?_
      exact .bind (.modify (Q := fun _ s' => s'.types.get? d = some ty) (by simp))
        fun _ _ h => .pure h
    · next h => exact absurd hidle (hbusy (by simpa using h)).1

variable (ht : e.tree.WellFormed) (hds : e.decls.Sane e.tree) (hrun : Obeys e.tree run)
  (hdecls : e.decls = .ofTree e.tree) (hrecords : Records run)

include ht hrun

theorem signatures_spec {d : NodeId} {ps : List NodeId}
    (hps : ∀ p ∈ ps, (Kind.isParameter, p) ∈ (e.tree.kind d).parts)
    (hinv : Invariant e.tree opened s) (hconcerns : s.Concerns e.tree opened d) :
    Ends (ps.mapM fun p => run (.signature p)) s fun as s' =>
      Moves e.tree opened nowhere s s' ∧ s'.Takes e.tree ps as := by
  induction ps generalizing s with
  | nil => exact .pure ⟨.refl hinv, .nil⟩
  | cons p ps ih =>
      have hp := hps p (by simp)
      have hparameter := ht.fits d _ hp
      have hneed : s.AllNeed e.tree opened p :=
        hconcerns.allNeed (.parameter (Tree.child_of_part hp) hparameter)
      rw [List.mapM_cons]
      refine (hrun opened (.signature p) s hinv
        ⟨Kind.isDeclaration_of_isParameter hparameter, hneed⟩).bind ?_
      rintro a s₁ ⟨hmoves, -, -, -, hrecorded⟩
      have htakes : s₁.Takes e.tree [p] [a] := by
        refine .cons ?_ .nil
        by_cases hidle : s.inProgress.get? p = none
        · refine .inr (hrecorded ?_ ((hmoves.resumes.inProgress p).trans hidle))
          refine Bool.eq_false_iff.mpr fun hvar => ?_
          simp [Kind.isParameter_of_isVar hvar] at hparameter
        · exact .inl ((hneed.isCircular (.inl hidle)).later hmoves.effect.keeps)
      refine (ih (fun q hq => hps q (by simp [hq])) hmoves.invariant
        (hconcerns.later hmoves)).bind ?_
      rintro as s₂ ⟨hmoves', htakes'⟩
      have hfirst := htakes.later (by simpa using hparameter) hmoves'.effect
      exact .pure ⟨hmoves.trans hmoves', .cons (List.forall₂_cons.mp hfirst).1 htakes'⟩

theorem functionType_spec {d : NodeId} {ps : List NodeId} {output : Option NodeId}
    (hps : ∀ p ∈ ps, (Kind.isParameter, p) ∈ (e.tree.kind d).parts)
    (houtput : ∀ o ∈ output, (Kind.isType, o) ∈ (e.tree.kind d).parts)
    (hd : (e.tree.kind d).isBindingPattern = false) (hinv : Invariant e.tree opened s)
    (hconcerns : s.Concerns e.tree opened d) :
    Ends (functionType e run d ps output) s fun a s' =>
      Moves e.tree opened nowhere s s' ∧ a.proper e.tree = true := by
  rw [functionType]
  refine (signatures_spec ht hrun hps hinv hconcerns).bind ?_
  rintro inputs s₁ ⟨hmoves, -⟩
  split
  · exact .pure ⟨hmoves, rfl⟩
  · next o =>
      rw [← bind_assoc]
      refine (typeExprIn_spec ht hrun d hmoves.invariant (houtput o rfl) hd).bind ?_
      rintro a s₂ ⟨hmoves', hplain⟩
      exact .pure ⟨hmoves.trans hmoves', by simpa [Ty.plain, Ty.proper] using hplain⟩

include hds hdecls

theorem varType_spec {v : NodeId} (hinv : Invariant e.tree opened s)
    (hnew : s.types.get? v = none) (hconcerns : s.Concerns e.tree opened v) :
    Ends (varType e run v) s fun a s' =>
      Moves e.tree opened nowhere s s' ∧ a.proper e.tree = true ∧
        (s'.types.get? v = some a ∨ s'.types.get? v = none ∧ a = .error) ∧
        ∀ b, e.tree.BindsOutside b v → s'.IsChecked b := by
  rw [varType]
  split
  · next hnone =>
      refine .pure ⟨.refl hinv, rfl, .inr ⟨hnew, rfl⟩, fun b hb => ?_⟩
      rw [hdecls, hb.bound] at hnone
      cases hnone
  · next b hb =>
      have hbound : e.tree.Needs s.references v b := .bound (hdecls ▸ hb)
      refine (contextOf_spec ht hrun b hinv).bind ?_
      rintro ctx s₁ ⟨hmoves, hctx⟩
      refine (withFrames_spec hmoves.invariant (by simp) fun s₂ hmoves' =>
        hrun opened (.binding b ctx false) s₂ hmoves'.invariant
          ⟨hds.bindings v b hb, hctx,
            ((hconcerns.allNeed hbound).later hmoves).later hmoves'⟩).bind ?_
      rintro _ s₃ ⟨s₂, hmoves₂, hchecked, hmoves₃⟩
      have hentered : ∀ b', e.tree.BindsOutside b' v → s₃.IsChecked b' := by
        intro b' hb'
        rw [hdecls] at hb
        obtain rfl := Option.some.inj (hb.symm.trans hb'.bound)
        exact hmoves₃.effect.checked b hchecked
      refine .typeOf (.pure ⟨hmoves.trans (hmoves₂.trans hmoves₃), ?_⟩)
      cases htype : s₃.types.get? v with
      | none => exact ⟨rfl, .inr ⟨rfl, rfl⟩, hentered⟩
      | some ty => exact ⟨hmoves₃.invariant.proper v ty htype, .inl rfl, hentered⟩

include hrecords

omit ht in
theorem stored_spec {p : NodeId} (hinv : Invariant e.tree opened s)
    (hconcerns : s.Concerns e.tree opened p) :
    Ends (match storedFor e p with
      | some v => run (.signature v)
      | none => pure .error) s fun a s' =>
      Moves e.tree opened nowhere s s' ∧ a.proper e.tree = true ∧
        ∀ v b, e.tree.Sets p v b →
          e.tree.IsCircular s'.references p ∨ s'.types.get? v = some a ∧ ¬ opened b := by
  have hstored : storedFor e p = storedFor ⟨e.tree, .ofTree e.tree⟩ p := by rw [← hdecls]
  split
  · next v hv =>
      have hneeds : e.tree.Needs s.references p v := .stored (hstored ▸ hv)
      intro a s' ha
      obtain ⟨hmoves, -, hproper, -⟩ := hrun opened (.signature v) s hinv
        ⟨storedFor_isDeclaration hds hv, hconcerns.allNeed hneeds⟩ a s' ha
      refine ⟨hmoves, hproper, fun w b hsets => ?_⟩
      obtain rfl := Option.some.inj (hv.symm.trans (hstored.trans hsets.stored))
      by_cases hidle : s.inProgress.get? v = none
      · by_cases hopen : opened b
        · left
          have hbound : e.tree.Needs s.references v b := .bound hsets.binds.bound
          exact Tree.IsCircular.later (.head hneeds (.head' hbound (hconcerns b (.inr hopen))))
            hmoves.effect.keeps
        · exact .inr ⟨hrecords v s a s' ha hidle, hopen⟩
      · left
        exact Tree.IsCircular.later (.head' hneeds (hconcerns v (.inl hidle))) hmoves.effect.keeps
  · next hnone =>
      refine .pure ⟨.refl hinv, rfl, fun v b hsets => ?_⟩
      rw [hstored, hsets.stored] at hnone
      cases hnone

omit hds hdecls hrecords in
theorem initType_spec {d : NodeId} {introducer : Site} {ps : List NodeId} {body : Option NodeId}
    {synthesized : Bool} (hk : e.tree.kind d = .init introducer ps body synthesized)
    (hinv : Invariant e.tree opened s) (hconcerns : s.Concerns e.tree opened d) :
    Ends (do
      let inputs ← ps.mapM fun p => run (.signature p)
      let ctx ← contextOf e run d
      return .function inputs (ctx.selfType.getD .error)) s fun a s' =>
        Moves e.tree opened nowhere s s' ∧ WorkedOut e.tree opened d a s' := by
  refine (signatures_spec ht hrun (d := d) (by simp +contextual [hk, Kind.parts]) hinv
    hconcerns).bind ?_
  rintro inputs s₁ ⟨hmoves, htakes⟩
  refine (contextOf_spec ht hrun d hmoves.invariant).bind ?_
  rintro ctx s₂ ⟨hmoves', hctx⟩
  have hproper : (Ty.function inputs (ctx.selfType.getD .error)).proper e.tree = true := by
    cases hself : ctx.selfType with
    | none => rfl
    | some ty => simpa [Ty.plain, Ty.proper] using hctx.selfType ty hself
  refine .pure ⟨hmoves.trans hmoves', hproper, by simp [hk], by simp [hk, Kind.isVar],
    fun b hb => ?_, fun v b hsets => ?_, ?_⟩
  · simpa [hk, Kind.isVar] using hb.isVar
  · obtain ⟨x, hx⟩ := hsets.unannotated
    cases hk.symm.trans hx
  · intro introducer ps' body synthesized hk'
    obtain ⟨-, rfl, -⟩ := Kind.init.inj (hk.symm.trans hk')
    refine ⟨inputs, _, rfl, htakes.later (fun p hp => ?_) hmoves'.effect⟩
    exact ht.fits d (Kind.isParameter, p) (by simp [hk, Kind.parts, hp])

theorem declaredType_spec {d : NodeId} (hinv : Invariant e.tree opened s)
    (hnew : s.types.get? d = none) (hconcerns : s.Concerns e.tree opened d) :
    Ends (declaredType e run d) s fun a s' =>
      Moves e.tree opened nowhere s s' ∧ WorkedOut e.tree opened d a s' := by
  have hother {m : CheckM Ty} (hm : Ends m s fun a s' =>
      Moves e.tree opened nowhere s s' ∧ a.proper e.tree = true)
      (hvar : (e.tree.kind d).isVar = false)
      (halias : ∀ x y k, e.tree.kind d ≠ .typeAlias x y k)
      (hunset : ∀ x, e.tree.kind d ≠ .parameter x none)
      (hinit : ∀ introducer ps body synthesized,
        e.tree.kind d ≠ .init introducer ps body synthesized) :
      Ends m s fun a s' => Moves e.tree opened nowhere s s' ∧ WorkedOut e.tree opened d a s' := by
    refine hm.mono ?_
    rintro a s' ⟨hmoves, hproper⟩
    exact ⟨hmoves, .of_kind hproper (fun x y k hk => absurd hk (halias x y k)) hvar hunset hinit⟩
  rw [declaredType]
  split
  · next x ty hk =>
      refine hother ?_ (by simp [hk, Kind.isVar]) (by simp [hk]) (by simp [hk]) (by simp [hk])
      refine (typeExprIn_spec ht hrun d hinv (p := d) (n := ty) (by simp [hk, Kind.parts])
        (by simp [hk, Kind.isBindingPattern])).mono ?_
      rintro a s' ⟨hmoves, hplain⟩
      exact ⟨hmoves, Ty.proper_of_plain hplain⟩
  · next x hk =>
      refine (stored_spec hds hrun hdecls hrecords hinv hconcerns).mono ?_
      rintro a s' ⟨hmoves, hproper, hstored⟩
      refine ⟨hmoves, hproper, by simp [hk], by simp [hk, Kind.isVar], fun b hb => ?_, hstored,
        by simp [hk]⟩
      simpa [hk, Kind.isVar] using hb.isVar
  · next hk =>
      refine hother (functionType_spec ht hrun ?_ ?_ ?_ hinv hconcerns) (by simp [hk, Kind.isVar])
        (by simp [hk]) (by simp [hk]) (by simp [hk])
      · intro p hp
        simp [hk, Kind.parts, hp]
      · intro o ho
        simp [hk, Kind.parts, Option.mem_def.mp ho]
      · simp [hk, Kind.isBindingPattern]
  · next hk =>
      refine hother (functionType_spec ht hrun ?_ ?_ ?_ hinv hconcerns) (by simp [hk, Kind.isVar])
        (by simp [hk]) (by simp [hk]) (by simp [hk])
      · intro p hp
        simp [hk, Kind.parts, hp]
      · intro o ho
        simp [hk, Kind.parts, Option.mem_def.mp ho]
      · simp [hk, Kind.isBindingPattern]
  · next hk => exact initType_spec ht hrun hk hinv hconcerns
  · next hk =>
      refine hother (functionType_spec ht hrun ?_ ?_ ?_ hinv hconcerns) (by simp [hk, Kind.isVar])
        (by simp [hk]) (by simp [hk]) (by simp [hk])
      · intro p hp
        simp [hk, Kind.parts, hp]
      · intro o ho
        simp [hk, Kind.parts, Option.some.inj (Option.mem_def.mp ho)]
      · simp [hk, Kind.isBindingPattern]
  · next hk =>
      refine (varType_spec ht hds hrun hdecls hinv hnew hconcerns).mono ?_
      rintro a s' ⟨hmoves, hproper, htype, hentered⟩
      refine ⟨hmoves, hproper, by simp [hk], fun _ => htype, hentered, fun v b hsets => ?_,
        by simp [hk]⟩
      obtain ⟨x, hx⟩ := hsets.unannotated
      cases hk.symm.trans hx
  · next hannotated hunset hfunction hmethod hinit hsubscript hvar =>
      have hnot : (e.tree.kind d).isVar = false := by
        cases hk : e.tree.kind d with
        | var => exact absurd hk (hvar _)
        | _ => rfl
      exact .pure ⟨.refl hinv, .of_kind rfl (fun _ _ _ _ => rfl) hnot hunset hinit⟩

theorem signature_spec {d : NodeId} (hinv : Invariant e.tree opened s)
    (hready : Job.Ready e.tree opened s (.signature d)) :
    Ends (signature e run d) s fun a s' =>
      Moves e.tree opened nowhere s s' ∧ Job.Result e.tree a s' (.signature d) := by
  obtain ⟨hd, hneed⟩ := hready
  rw [signature]
  refine .typeOf ?_
  split
  · next ty hty =>
      exact .pure ⟨.refl hinv, hd, hinv.proper d ty hty, .inr hty, fun _ _ => hty⟩
  · next hnew =>
      refine (start_spec d s).bind ?_
      rintro fresh s₁ ⟨hfresh, hbusy⟩
      split
      · next h =>
          obtain ⟨hidle, rfl⟩ := hfresh h
          refine (declaredType_spec ht hds hrun hdecls hrecords
            (hinv.inProgress (s.inProgress.insert d ())) hnew hneed.start).bind ?_
          rintro ty s₂ ⟨hmoves, hty⟩
          have hmoves' := moves_workedOut ht hd hnew hidle hmoves hty
          refine .bind (.modify (Q := fun _ s' => s' = _) rfl) ?_
          rintro - s₃ rfl
          refine .bind (.modify (Q := fun _ s' => s' = _) rfl) ?_
          rintro - s₄ rfl
          exact .pure ⟨hmoves', hd, hty.proper, .inr (by simp), fun _ _ => by simp⟩
      · next h =>
          obtain ⟨hnone, rfl⟩ := hbusy (by simpa using h)
          exact .pure ⟨.refl hinv, hd, rfl, .inl rfl, fun _ hidle => absurd hidle hnone⟩

omit hds hdecls hrecords in
theorem typeAlias_spec {d : NodeId} (hinv : Invariant e.tree opened s)
    (hd : ∃ introducer x aliased, e.tree.kind d = .typeAlias introducer x aliased) :
    Ends (typeAlias e run d) s fun a s' =>
      Moves e.tree opened nowhere s s' ∧ Job.Result e.tree a s' (.typeAlias d) := by
  obtain ⟨introducer, x, aliased, hk⟩ := id hd
  rw [typeAlias]
  refine .typeOf ?_
  split
  · next ty hty => exact .pure ⟨.refl hinv, hd, hinv.plain d _ _ _ ty hk hty, fun _ => hty⟩
  · next hnew =>
      rw [hk]
      refine (start_spec d s).bind ?_
      rintro fresh s₁ ⟨hfresh, hbusy⟩
      split
      · next h =>
          obtain ⟨hidle, rfl⟩ := hfresh h
          rw [← bind_assoc]
          refine (typeExprIn_spec ht hrun d (hinv.inProgress (s.inProgress.insert d ())) (p := d)
            (by simp [hk, Kind.parts]) (by simp [hk, Kind.isBindingPattern])).bind ?_
          rintro ty s₂ ⟨hmoves, hplain⟩
          have hmoves' := moves_workedOut ht (by simp [hk, Kind.isDeclaration]) hnew hidle hmoves
            (.of_kind (Ty.proper_of_plain hplain) (fun _ _ _ _ => hplain) (by simp [hk, Kind.isVar])
              (by simp [hk]) (by simp [hk]))
          refine .bind (.modify (Q := fun _ s' => s' = _) rfl) ?_
          rintro - s₃ rfl
          refine .bind (.modify (Q := fun _ s' => s' = _) rfl) ?_
          rintro - s₄ rfl
          exact .pure ⟨hmoves', hd, hplain, fun _ => by simp⟩
      · next h =>
          obtain ⟨-, rfl⟩ := hbusy (by simpa using h)
          refine (complain_spec e _ _ _).bind ?_
          rintro - s₂ ⟨hquiet, hunclean⟩
          exact .pure ⟨hquiet.moves hinv, hd, rfl, fun hclean => absurd hclean hunclean⟩

omit ht hds hdecls hrecords in
theorem valueType_spec {d : NodeId} (hinv : Invariant e.tree opened s)
    (hd : (e.tree.kind d).isDeclaration = true) (hneed : s.AllNeed e.tree opened d) :
    Ends (valueType e run d) s fun a s' =>
      Moves e.tree opened nowhere s s' ∧ a.proper e.tree = true ∧
        (s'.Clean → a = .error ∨ (s'.program e.tree).HasValue d a) := by
  have hknown {a : Ty} (hproper : a.proper e.tree = true)
      (hvalue : (s.program e.tree).HasValue d a) :
      Ends (pure a) s fun a s' => Moves e.tree opened nowhere s s' ∧ a.proper e.tree = true ∧
        (s'.Clean → a = .error ∨ (s'.program e.tree).HasValue d a) :=
    .pure ⟨.refl hinv, hproper, fun _ => .inr hvalue⟩
  rw [valueType]
  split
  · next hk =>
      refine hknown ?_ (by simp [Program.HasValue, State.program, hk])
      rw [Ty.proper, Ty.proper_of_plain (Ty.plain_product hk)]
  · next hk => exact hknown rfl (by simp [Program.HasValue, State.program, hk])
  · next hk =>
      refine (hrun opened (.typeAlias d) s hinv ⟨_, _, _, hk⟩).bind ?_
      rintro a s₁ ⟨hmoves, -, hplain, htype⟩
      have hproper : (Ty.metatype a).proper e.tree = true := by
        rw [Ty.proper, Ty.proper_of_plain hplain]
      refine .pure ⟨hmoves, hproper, fun hclean => .inr ?_⟩
      simpa [Program.HasValue, State.program, hk] using htype hclean
  · next hk => exact hknown rfl (by simp [Program.HasValue, State.program, hk])
  · next hk => exact hknown rfl (by simp [Program.HasValue, State.program, hk])
  · next hk => exact hknown rfl (by simp [Program.HasValue, State.program, hk])
  · next h₁ h₂ h₃ h₄ h₅ h₆ =>
      refine (hrun opened (.signature d) s hinv ⟨hd, hneed⟩).mono ?_
      rintro a s₁ ⟨hmoves, -, hproper, htype, -⟩
      refine ⟨hmoves, hproper, fun _ => htype.imp_right fun h => ?_⟩
      rw [Program.HasValue]
      split
      · next hk => exact absurd hk (h₁ _ _ _ _ _)
      · next hk => exact absurd hk (h₂ _ _ _)
      · next hk => exact absurd hk (h₃ _ _ _)
      · next hk => exact absurd hk (h₄ _ _)
      · next hk => exact absurd hk (h₅ _)
      · next hk => exact absurd hk (h₆ _ _ _)
      · exact h

end WorkingOut

end LanguageService.Check
