import LanguageService.Proofs.Fulfilling

namespace LanguageService.Check

variable {e : Env} {run : Run} {s : State} {ctx : Context}

section Steps

theorem complain_proceeds (hs : s.Orderly e.tree) (site : Site) (c : Complaint) :
    Proceeds e (complain e site c) s fun _ s' => ¬ s'.Clean :=
  (complain_spec e site c s).mono fun _ s' h => by
    obtain ⟨⟨hclean, hsame⟩, hdirty⟩ := h
    rw [hsame] at hclean hdirty ⊢
    exact ⟨.of_eq hs hclean rfl rfl rfl rfl rfl hs.frames, hdirty⟩

theorem complain_error_proceeds (hs : s.Orderly e.tree) (site : Site) (c : Complaint) :
    Proceeds e (complain e site c >>= fun _ => pure Ty.error) s fun a s' =>
      a.rooted e.tree = true ∧ ¬ s'.Clean :=
  (complain_proceeds hs site c).bind fun _ _ hkeeps hdirty => .pure hkeeps.orderly ⟨rfl, hdirty⟩

theorem expect_proceeds (hs : s.Orderly e.tree) (expected found : Ty) (n : NodeId) :
    Proceeds e (expect e expected found n) s fun _ _ => True := by
  rw [expect]
  split
  · exact .pure hs trivial
  · exact (complain_proceeds hs _ _).mono fun _ _ _ _ => trivial

theorem refer_proceeds (hs : s.Orderly e.tree) (n : NodeId) (r : Reference) :
    Proceeds e (refer n r) s fun _ s' => s'.references.get? n ≠ none :=
  .modify (.refer hs n r) (by simp)

theorem setType_proceeds (ht : e.tree.WellFormed) (hs : s.Orderly e.tree) {n : NodeId} {ty : Ty}
    (hn : (e.tree.kind n).isExpr = false) (hty : ty.rooted e.tree = true)
    (hfulfils : s.Fulfils e.tree n) :
    Proceeds e (setType n ty) s fun _ s' => s'.types.get? n ≠ none :=
  .modify ((Keeps.setType hs hty hfulfils).elsewhere ht hn) (by simp)

theorem frames_proceeds (hs : s.Orderly e.tree) {f : State → List Frame}
    (hf : ∀ fr ∈ f s, ∀ q ∈ fr, (e.tree.kind q.2).hasSignature = true) :
    Proceeds e (modify fun s => { s with frames := f s }) s fun _ _ => True :=
  .modify (.of_eq hs id rfl rfl rfl rfl rfl hf) trivial

theorem withFrames_proceeds {α : Type} {frames : List Frame} {m : CheckM α}
    {Q : α → State → Prop} (hs : s.Orderly e.tree)
    (hframes : ∀ f ∈ frames, ∀ q ∈ f, (e.tree.kind q.2).hasSignature = true)
    (hlast : ∀ a s s', Accrues s s' → Q a s → Q a s')
    (hm : ∀ s₁, s₁.Orderly e.tree → Proceeds e m s₁ Q) :
    Proceeds e (withFrames frames m) s Q := by
  rw [withFrames]
  refine .get ((frames_proceeds hs (f := fun _ => frames) hframes).bind fun _ s₁ hkeeps _ => ?_)
  refine (hm s₁ hkeeps.orderly).bind fun a s₂ hkeeps₂ ha => ?_
  refine (frames_proceeds hkeeps₂.orderly (f := fun _ => s.frames) hs.frames).bind
    fun _ s₃ hkeeps₃ _ => ?_
  exact .pure hkeeps₃.orderly (hlast a s₂ s₃ hkeeps₃.toAccrues ha)

end Steps

section Jobs

variable (hrun : Thorough e run)

include hrun

theorem Thorough.job (hs : s.Orderly e.tree) {j : Job} (hj : j.Fits e.tree)
    (hsettled : ∀ q, ¬ j.Unsettles e.tree q) :
    Proceeds e (run j) s fun a s' => a.rooted e.tree = true ∧ j.Done e.tree s' :=
  (hrun j s hs hj).mono fun _ _ h =>
    ⟨h.1.widen fun q hq => absurd hq (hsettled q), h.2.1, h.2.2.1⟩

theorem Thorough.jobs (hs : s.Orderly e.tree) {js : List Job} (hjs : ∀ j ∈ js, j.Fits e.tree)
    (hsettled : ∀ j ∈ js, ∀ q, ¬ j.Unsettles e.tree q) :
    Proceeds e (js.mapM run) s fun as s' =>
      (∀ a ∈ as, a.rooted e.tree = true) ∧ ∀ j ∈ js, j.Done e.tree s' :=
  .mapM (P := fun j s => j.Done e.tree s) (fun _ _ _ h hdone => hdone.later h.toAccrues)
    (fun j hj _ hs => hrun.job hs (hjs j hj) (hsettled j hj)) hs

theorem Thorough.each (hs : s.Orderly e.tree) {js : List Job} (hjs : ∀ j ∈ js, j.Fits e.tree)
    (hsettled : ∀ j ∈ js, ∀ q, ¬ j.Unsettles e.tree q) :
    Proceeds e (each run js) s fun _ s' => ∀ j ∈ js, j.Done e.tree s' := by
  rw [each_eq_mapM]
  exact (hrun.jobs hs hjs hsettled).bind fun _ _ hkeeps h => .pure hkeeps.orderly h.2

theorem Thorough.single (hs : s.Orderly e.tree) {j : Job} (hj : j.Fits e.tree)
    (hsettled : ∀ q, ¬ j.Unsettles e.tree q) :
    Proceeds e (Check.each run [j]) s fun _ s' => j.Done e.tree s' :=
  (hrun.each hs (by simpa using hj) (by simpa using hsettled)).mono
    fun _ _ _ hdone => hdone j (by simp)

end Jobs

section Contexts

variable (ht : e.tree.WellFormed) (hrun : Thorough e run)

theorem Context.Rooted.withGenerics {t : Tree} (ht : t.WellFormed) (h : ctx.Rooted t) {q : NodeId}
    {gs : List NodeId} (hgs : ∀ g ∈ gs, (Kind.isGeneric, g) ∈ (t.kind q).parts)
    {self : Option Ty} (hself : ∀ ty, self = some ty → ty.rooted t = true) :
    Context.Rooted t ⟨ctx.scope, self, ctx.generics ++ gs, ctx.returnType⟩ := by
  refine ⟨hself, fun g hg => ?_⟩
  rcases List.mem_append.mp hg with hg | hg
  · exact h.generics g hg
  · exact ht.fits q _ (hgs g hg)

theorem Context.Rooted.getD_selfType {t : Tree} (h : ctx.Rooted t) {a ty : Ty}
    (ha : a.rooted t = true) (hty : some (ctx.selfType.getD a) = some ty) :
    ty.rooted t = true := by
  obtain rfl := Option.some.inj hty
  cases hself : ctx.selfType with
  | none => exact ha
  | some b => exact h.selfType b hself

include ht hrun

theorem extendContext_proceeds (hs : s.Orderly e.tree) (hctx : ctx.Rooted e.tree) (d : NodeId) :
    Proceeds e (extendContext e run ctx d) s fun ctx' _ => ctx'.Rooted e.tree := by
  have hself : Proceeds e (extendContext.subjectSelf run ctx d) s fun ctx' _ =>
      ctx'.Rooted e.tree := by
    rw [extendContext.subjectSelf]
    split
    · exact .pure hs hctx
    · refine (hrun.job (j := .subject d) hs trivial fun _ => id).bind fun a s₁ hkeeps h => ?_
      refine .pure hkeeps.orderly ⟨?_, hctx.generics⟩
      rintro ty ⟨⟩
      exact h.1
  rw [extendContext]
  split
  · next hk =>
      exact .pure hs (hctx.withGenerics ht (q := d) (by simp +contextual [hk, Kind.parts])
        hctx.selfType)
  · next hk =>
      exact .pure hs (hctx.withGenerics ht (q := d) (by simp +contextual [hk, Kind.parts])
        hctx.selfType)
  · next hk =>
      exact .pure hs (hctx.withGenerics ht (q := d) (by simp +contextual [hk, Kind.parts])
        fun _ => hctx.getD_selfType rfl)
  · next hk =>
      refine .pure hs ⟨fun _ => hctx.getD_selfType ?_, hctx.generics⟩
      simp [Ty.rooted, Kind.isPlaceholder, hk, Kind.isTrait]
  · exact hself
  · exact hself
  · exact .pure hs hctx

theorem contextOf_proceeds (hs : s.Orderly e.tree) (d : NodeId) :
    Proceeds e (contextOf e run d) s fun ctx _ => ctx.Rooted e.tree := by
  have hall (ds : List NodeId) {ctx : Context} (hctx : ctx.Rooted e.tree) {s : State}
      (hs : s.Orderly e.tree) :
      Proceeds e (ds.foldlM (extendContext e run) ctx) s fun ctx' _ => ctx'.Rooted e.tree := by
    induction ds generalizing ctx s with
    | nil => exact .pure hs hctx
    | cons q ds ih =>
        rw [List.foldlM_cons]
        exact (extendContext_proceeds ht hrun hs hctx q).bind fun _ _ hkeeps hctx =>
          ih hctx hkeeps.orderly
  exact hall _ ⟨by simp, List.forall_mem_nil _⟩ hs

omit ht in
theorem typeExpr_job (hs : s.Orderly e.tree) {n : NodeId} (hn : (e.tree.kind n).isType = true)
    (hctx : ctx.Rooted e.tree) :
    Proceeds e (run (.typeExpr n ctx)) s fun a s' =>
      a.rooted e.tree = true ∧ s'.types.get? n ≠ none :=
  hrun.job (j := .typeExpr n ctx) hs ⟨hn, hctx⟩ fun _ => id

theorem typeExprIn_proceeds (hs : s.Orderly e.tree) (d : NodeId) {n : NodeId}
    (hn : (e.tree.kind n).isType = true) :
    Proceeds e (contextOf e run d >>= fun ctx => run (.typeExpr n ctx)) s fun a s' =>
      a.rooted e.tree = true ∧ s'.types.get? n ≠ none :=
  (contextOf_proceeds ht hrun hs d).bind fun _ _ hkeeps hctx =>
    typeExpr_job hrun hkeeps.orderly hn hctx

theorem resolve_proceeds {ext n : NodeId} (hs : s.Orderly e.tree)
    (hn : (e.tree.kind ext).subject? = some n) (htype : (e.tree.kind n).isType = true) :
    Proceeds e (subject.resolve e run ext n) s fun a s' =>
      a.rooted e.tree = true ∧ s'.subjects.get? ext ≠ none := by
  have hremember {a : Ty} {s₁ : State} (hs₁ : s₁.Orderly e.tree) (ha : a.rooted e.tree = true)
      (hseen : e.decls.parents.get? ext ≠ none → s₁.types.get? n ≠ none) :
      Proceeds e (do
        modify fun s => { s with subjects := s.subjects.insert ext a }
        pure a) s₁ fun a s' => a.rooted e.tree = true ∧ s'.subjects.get? ext ≠ none := by
    have haccrues : Accrues s₁ { s₁ with subjects := s₁.subjects.insert ext a } := by
      refine ⟨id, fun _ => id, fun _ => id, fun d hd => ?_, fun _ => id, fun _ => id⟩
      rw [Table.get?_insert]
      split
      · simp
      · exact hd
    refine .bind (.modify (Q := fun _ s' => s'.subjects.get? ext ≠ none)
      ⟨haccrues, fun _ => rfl, ⟨hs₁.frames, hs₁.types, fun d ty hd => ?_⟩, fun m _ hm => ?_⟩
      (by simp)) fun _ _ hkeeps h => .pure hkeeps.orderly ⟨ha, h⟩
    · rw [Table.get?_insert] at hd
      split at hd
      · cases hd
        exact ha
      · exact hs₁.subjects d ty hd
    · by_cases heq : ext = m
      · subst heq
        refine ⟨fun htyped => (hm.typed htyped).later haccrues fun _ _ _ => rfl, ?_, hm.ascription⟩
        intro m hm hparent _
        obtain rfl := Option.some.inj (hn.symm.trans hm)
        exact hseen hparent
      · refine hm.later haccrues id (fun hsubject => ?_) id fun _ _ _ => rfl
        rwa [Table.get?_insert, if_neg heq] at hsubject
  rw [subject.resolve]
  split
  · rw [← bind_assoc]
    exact (typeExprIn_proceeds ht hrun hs _ htype).bind fun a s₁ hkeeps h =>
      hremember hkeeps.orderly h.1 fun _ => h.2
  · next hparent =>
      rw [pure_bind]
      exact hremember hs rfl fun h => absurd hparent h

theorem subject_proceeds (hs : s.Orderly e.tree) (ext : NodeId) :
    Proceeds e (subject e run ext) s fun a s' => a.rooted e.tree = true ∧
      ((e.tree.kind ext).waits = true → s'.subjects.get? ext ≠ none) := by
  have hresolve {n : NodeId} (hn : (e.tree.kind ext).subject? = some n)
      (htype : (e.tree.kind n).isType = true) :
      Proceeds e (subject.resolve e run ext n) s fun a s' => a.rooted e.tree = true ∧
        ((e.tree.kind ext).waits = true → s'.subjects.get? ext ≠ none) :=
    (resolve_proceeds ht hrun hs hn htype).mono fun _ _ _ h => ⟨h.1, fun _ => h.2⟩
  rw [subject]
  refine .get ?_
  split
  · next a ha => exact .pure hs ⟨hs.subjects ext a ha, fun _ => by simp [ha]⟩
  · split
    · next n _ hk =>
        exact hresolve (by simp [hk, Kind.subject?])
          (ht.fits ext (Kind.isType, n) (by simp [hk, Kind.parts]))
    · next n _ _ hk =>
        exact hresolve (by simp [hk, Kind.subject?])
          (ht.fits ext (Kind.isType, n) (by simp [hk, Kind.parts]))
    · next hext hconf =>
        refine .pure hs ⟨rfl, fun hwaits => ?_⟩
        cases hk : e.tree.kind ext with
        | extension i n ms => exact absurd hk (hext i n ms)
        | conformance i n ts ms => exact absurd hk (hconf i n ts ms)
        | _ => simp [hk, Kind.waits] at hwaits

end Contexts

section Types

variable (ht : e.tree.WellFormed) (hrun : Thorough e run)

include hrun

theorem typeDenoted_proceeds {d : NodeId} {find : CheckM Ty} (hs : s.Orderly e.tree)
    (h : typeDenoted e run d = some find) :
    Proceeds e find s fun a _ => a.rooted e.tree = true := by
  rw [typeDenoted] at h
  split at h
  · cases h
    exact .pure hs rfl
  · cases h
    exact .pure hs rfl
  · next hk =>
      cases h
      exact .pure hs (by simp [Ty.rooted, hk, Kind.isPlaceholder, Kind.isAssociated])
  · next hk =>
      cases h
      exact .pure hs (by simp [Ty.rooted, hk, Kind.isPlaceholder, Kind.isGeneric])
  · next hk =>
      cases h
      exact (hrun.job (j := .typeAlias d) hs (by simp [Job.Fits, hk, Kind.isTypeAlias])
        fun _ => id).mono fun _ _ _ h => h.1
  · cases h

theorem typeName_proceeds {n : NodeId} (x : Name) (hs : s.Orderly e.tree)
    (hctx : ctx.Rooted e.tree) :
    Proceeds e (typeName e run n x ctx) s fun a s' => a.rooted e.tree = true ∧
      (x.text = "Self" ∨ s'.references.get? n ≠ none ∨ ¬ s'.Clean) := by
  have hcomplain (c : Complaint) :
      Proceeds e (complain e x.site c >>= fun _ => pure Ty.error) s fun a s' =>
        a.rooted e.tree = true ∧
          (x.text = "Self" ∨ s'.references.get? n ≠ none ∨ ¬ s'.Clean) :=
    (complain_error_proceeds hs _ c).mono fun _ _ _ h => ⟨h.1, .inr (.inr h.2)⟩
  have hrefer {s₁ : State} {a : Ty} (r : Reference) (hs₁ : s₁.Orderly e.tree)
      (ha : a.rooted e.tree = true) :
      Proceeds e (refer n r >>= fun _ => pure a) s₁ fun a s' => a.rooted e.tree = true ∧
        (x.text = "Self" ∨ s'.references.get? n ≠ none ∨ ¬ s'.Clean) :=
    (refer_proceeds hs₁ n r).bind fun _ _ hkeeps h => .pure hkeeps.orderly ⟨ha, .inr (.inl h)⟩
  rw [typeName]
  split
  · next hself =>
      split
      · next ty hty => exact .pure hs ⟨hctx.selfType ty hty, .inl hself⟩
      · exact hcomplain _
  · dsimp only
    split
    · next g hg =>
        refine hrefer _ hs ?_
        simp [Ty.rooted, Kind.isPlaceholder, hctx.generics g (List.mem_of_find?_eq_some hg)]
    · split
      · exact hrefer _ hs rfl
      · split
        · exact hcomplain _
        · split
          · exact hcomplain _
          · next find hfind =>
              exact (typeDenoted_proceeds hrun hs hfind).bind fun a s₁ hkeeps ha =>
                hrefer _ hkeeps.orderly ha

theorem typeExprs_proceeds {ns : List NodeId} (hs : s.Orderly e.tree) (hctx : ctx.Rooted e.tree)
    (hns : ∀ n ∈ ns, (e.tree.kind n).isType = true) :
    Proceeds e (ns.mapM fun n => run (.typeExpr n ctx)) s fun as s' =>
      (∀ a ∈ as, a.rooted e.tree = true) ∧ ∀ n ∈ ns, s'.types.get? n ≠ none :=
  .mapM (P := fun n s => s.types.get? n ≠ none) (fun n _ _ h => h.typed n)
    (fun n hn _ hs => typeExpr_job hrun hs (hns n hn) hctx) hs

include ht

theorem typeExpr_proceeds {n : NodeId} (hs : s.Orderly e.tree) (hctx : ctx.Rooted e.tree)
    (hn : (e.tree.kind n).isType = true) :
    Proceeds e (typeExpr e run n ctx) s fun a s' =>
      a.rooted e.tree = true ∧ s'.types.get? n ≠ none := by
  have hexpr : (e.tree.kind n).isExpr = false := by simpa using Kind.not_isExpr_of_isType hn
  have hset {a : Ty} {s₁ : State} (hs₁ : s₁.Orderly e.tree) (ha : a.rooted e.tree = true)
      (hfulfils : s₁.Fulfils e.tree n) :
      Proceeds e (setType n a >>= fun _ => pure a) s₁ fun a s' =>
        a.rooted e.tree = true ∧ s'.types.get? n ≠ none :=
    (setType_proceeds ht hs₁ hexpr ha hfulfils).bind fun _ _ hkeeps h =>
      .pure hkeeps.orderly ⟨ha, h⟩
  rw [typeExpr]
  split
  · next x hk =>
      refine (typeName_proceeds hrun x hs hctx).bind fun a s₁ hkeeps h => hset hkeeps.orderly h.1 ?_
      constructor <;> simp [hk, Kind.writtenTypes, Kind.parameters?]
      simpa using h.2
  · next es hk =>
      refine (typeExprs_proceeds hrun hs hctx fun m hm =>
        ht.fits n (Kind.isType, m) (by simp [hk, Kind.parts, hm])).bind fun as s₁ hkeeps h => ?_
      rw [pure_bind]
      refine hset hkeeps.orderly (Ty.rooted_ofElements h.1) ?_
      constructor <;> simp [hk, Kind.writtenTypes, Kind.parameters?]
      exact h.2
  · next hname htuple =>
      cases hk : e.tree.kind n with
      | nameType x => exact absurd hk (hname x)
      | tupleType es => exact absurd hk (htuple es)
      | _ => simp [hk, Kind.isType] at hn

end Types

section WorkingOut

theorem Keeps.workedOut {s₁ : State} {d : NodeId} {ty : Ty} (ht : e.tree.WellFormed)
    (hd : (e.tree.kind d).isExpr = false) (hidle : s.inProgress.get? d = none)
    (h : Keeps e nowhere { s with inProgress := s.inProgress.insert d () } s₁)
    (hty : ty.rooted e.tree = true) (hfulfils : s₁.Fulfils e.tree d) :
    Keeps e nowhere s
      { s₁ with inProgress := s₁.inProgress.erase d, types := s₁.types.insert d ty } := by
  have hstart : Accrues s { s with inProgress := s.inProgress.insert d () } := by
    refine .of_eq id rfl rfl rfl rfl fun q hq => ?_
    rw [Table.get?_insert]
    split
    · simp
    · exact hq
  have htyped (q : NodeId) (hq : s₁.types.get? q ≠ none) :
      (s₁.types.insert d ty).get? q ≠ none := (Accrues.setType d ty).typed q hq
  have hend : Accrues s₁
      { s₁ with inProgress := s₁.inProgress.erase d, types := s₁.types.insert d ty } := by
    refine ⟨id, htyped, fun _ => id, fun _ => id, fun _ => id, fun q hq => ?_⟩
    by_cases heq : d = q
    · exact .inl (by simp [heq])
    · exact hq.imp (htyped q) fun hbusy => by simpa [heq] using hbusy
  have hdomain {q c : NodeId} {x : Name} (hk : e.tree.kind q = .name (some c) x) :
      (s₁.types.insert d ty).get? c = s₁.types.get? c := by
    rw [Table.get?_insert, if_neg]
    rintro rfl
    exact not_qualified ht hd ⟨x, hk⟩
  refine ⟨(hstart.trans h.toAccrues).trans hend, fun q => ?_, ?_, fun q _ hq => ?_⟩
  · rw [Table.get?_erase]
    split
    · next heq => rw [← heq, hidle]
    · next hne => rw [h.inProgress, Table.get?_insert, if_neg hne]
  · have htypes := (h.orderly.setType (n := d) hty).types
    exact ⟨h.orderly.frames, htypes, h.orderly.subjects⟩
  · have hq₁ := h.answers q id (hq.later hstart id id id fun _ _ _ => rfl)
    by_cases heq : d = q
    · subst heq
      exact ⟨fun _ => hfulfils.later hend fun _ _ => hdomain, fun m hm hparent hseen =>
        htyped m (hq₁.subject m hm hparent hseen), fun p i introducer how sub a hb hp hchecked =>
        htyped a (hq₁.ascription p i introducer how sub a hb hp hchecked)⟩
    · refine hq₁.later hend (fun hnew => ?_) id id fun _ _ => hdomain
      rwa [Table.get?_insert, if_neg heq] at hnew

theorem start_proceeds {d : NodeId} {m fresh busy : CheckM Ty} (ht : e.tree.WellFormed)
    (hs : s.Orderly e.tree) (hd : (e.tree.kind d).isExpr = false)
    (hfresh : fresh = (do
      let ty ← m
      finish d
      setType d ty
      return ty))
    (hm : ∀ s₁, s₁.Orderly e.tree → Proceeds e m s₁ fun ty s' =>
      ty.rooted e.tree = true ∧ s'.Fulfils e.tree d)
    (hbusy : Proceeds e busy s fun ty _ => ty.rooted e.tree = true) :
    Proceeds e (do
      if ← start d then fresh else busy) s fun ty s' => ty.rooted e.tree = true ∧ s'.Holds d := by
  refine (start_spec d s).bind ?_
  rintro started s₁ ⟨hstarts, hwaits⟩
  split
  · next h =>
      obtain ⟨hidle, rfl⟩ := hstarts h
      rw [hfresh]
      refine Ends.bind (hm _ ⟨hs.frames, hs.types, hs.subjects⟩) ?_
      rintro ty s₂ ⟨hkeeps, hty, hfulfils⟩
      refine .bind (.modify (Q := fun _ s' => s' = _) rfl) ?_
      rintro - s₃ rfl
      refine .bind (.modify (Q := fun _ s' => s' = _) rfl) ?_
      rintro - s₄ rfl
      exact .pure ⟨hkeeps.workedOut ht hd hidle hty hfulfils, hty, .inl (by simp)⟩
  · next h =>
      obtain ⟨hstarted, rfl⟩ := hwaits (by simpa using h)
      exact hbusy.mono fun ty s' hkeeps hty => ⟨hty, .inr (by rwa [hkeeps.inProgress])⟩

variable (ht : e.tree.WellFormed) (hrun : Thorough e run)

include hrun

theorem signatures_proceeds {ps : List NodeId} (hs : s.Orderly e.tree)
    (hps : ∀ p ∈ ps, (e.tree.kind p).hasSignature = true) :
    Proceeds e (ps.mapM fun p => run (.signature p)) s fun as s' =>
      (∀ a ∈ as, a.rooted e.tree = true) ∧ ∀ p ∈ ps, s'.Holds p :=
  .mapM (P := fun p s => s.Holds p) (fun p _ _ h => h.holds p)
    (fun p hp _ hs => hrun.job (j := .signature p) hs (hps p hp) fun _ => id) hs

include ht

theorem functionType_proceeds {d : NodeId} {ps : List NodeId} {output : Option NodeId}
    (hs : s.Orderly e.tree)
    (hps : ∀ p ∈ ps, (Kind.isParameter, p) ∈ (e.tree.kind d).parts)
    (houtput : ∀ o ∈ output, (Kind.isType, o) ∈ (e.tree.kind d).parts) :
    Proceeds e (functionType e run d ps output) s fun a s' => a.rooted e.tree = true ∧
      (∀ p ∈ ps, s'.Holds p) ∧ ∀ o ∈ output, s'.types.get? o ≠ none := by
  rw [functionType]
  refine (signatures_proceeds hrun hs fun p hp =>
    Kind.hasSignature_of_isParameter (ht.fits d _ (hps p hp))).bind ?_
  rintro inputs s₁ hkeeps ⟨hinputs, hheld⟩
  split
  · exact .pure hkeeps.orderly ⟨Ty.rooted_function.mpr ⟨hinputs, rfl⟩, hheld, by simp⟩
  · next o =>
      rw [← bind_assoc]
      refine (typeExprIn_proceeds ht hrun hkeeps.orderly d (ht.fits d _ (houtput o rfl))).bind ?_
      rintro a s₂ hkeeps₂ ⟨ha, ho⟩
      refine .pure hkeeps₂.orderly ⟨Ty.rooted_function.mpr ⟨hinputs, ha⟩, fun p hp =>
        hkeeps₂.holds p (hheld p hp), ?_⟩
      rintro _ ⟨⟩
      exact ho

variable (hds : e.decls.Sane e.tree)

include hds

theorem varType_proceeds (hs : s.Orderly e.tree) (v : NodeId) :
    Proceeds e (varType e run v) s fun a _ => a.rooted e.tree = true := by
  rw [varType]
  split
  · exact .pure hs rfl
  · next b hb =>
      refine (contextOf_proceeds ht hrun hs b).bind fun ctx s₁ hkeeps hctx => ?_
      refine (withFrames_proceeds (Q := fun _ _ => True) hkeeps.orderly (List.forall_mem_nil _)
        (fun _ _ _ _ => id) fun s₂ hs₂ => (hrun.job (j := .binding b ctx false) hs₂
          ⟨hds.bindings v b hb, hctx⟩ fun _ => id).mono fun _ _ _ _ => trivial).bind
            fun _ s₃ hkeeps₃ _ => ?_
      refine .typeOf (.pure hkeeps₃.orderly ?_)
      cases hv : s₃.types.get? v with
      | none => rfl
      | some a => exact hkeeps₃.orderly.types v a hv

theorem declaredType_proceeds (hs : s.Orderly e.tree) {d : NodeId}
    (hd : (e.tree.kind d).hasSignature = true) :
    Proceeds e (declaredType e run d) s fun a s' =>
      a.rooted e.tree = true ∧ s'.Fulfils e.tree d := by
  have hfunction {ps : List NodeId} {output : Option NodeId}
      (hps : (e.tree.kind d).parameters? = some ps)
      (houtput : (e.tree.kind d).writtenTypes = output.toList)
      (hparts : ∀ p ∈ ps, (Kind.isParameter, p) ∈ (e.tree.kind d).parts)
      (hparts' : ∀ o ∈ output, (Kind.isType, o) ∈ (e.tree.kind d).parts) :
      Proceeds e (functionType e run d ps output) s fun a s' =>
        a.rooted e.tree = true ∧ s'.Fulfils e.tree d := by
    refine (functionType_proceeds ht hrun hs hparts hparts').mono fun a s' _ h => ⟨h.1, ?_⟩
    refine ⟨fun x hk => ?_, ?_, ?_, fun c x hk => ?_⟩
    · simp [hk, Kind.parameters?] at hps
    · simpa [houtput] using h.2.2
    · rintro ps' hps'
      obtain rfl := Option.some.inj (hps.symm.trans hps')
      exact h.2.1
    · simp [hk, Kind.parameters?] at hps
  have hplain {s' : State} (hwritten : (e.tree.kind d).writtenTypes = [])
      (hparameters : (e.tree.kind d).parameters? = none) : s'.Fulfils e.tree d := by
    constructor
    · intro x hk
      simp [hk, Kind.hasSignature, Kind.isDeclaration] at hd
    · simp [hwritten]
    · simp [hparameters]
    · intro c x hk
      simp [hk, Kind.hasSignature, Kind.isDeclaration] at hd
  rw [declaredType]
  split
  · next n hk =>
      refine (typeExprIn_proceeds ht hrun hs d
        (ht.fits d (Kind.isType, n) (by simp [hk, Kind.parts]))).mono fun a s' _ h => ⟨h.1, ?_⟩
      constructor <;> simp [hk, Kind.writtenTypes, Kind.parameters?]
      exact h.2
  · next hk =>
      have hfulfils {s' : State} : s'.Fulfils e.tree d :=
        hplain (by simp [hk, Kind.writtenTypes]) (by simp [hk, Kind.parameters?])
      split
      · next v hv =>
          exact (hrun.job (j := .signature v) hs (storedFor_hasSignature hds hv)
            fun _ => id).mono fun _ _ _ h => ⟨h.1, hfulfils⟩
      · exact .pure hs ⟨rfl, hfulfils⟩
  · next hk =>
      exact hfunction (by simp [hk, Kind.parameters?]) (by simp [hk, Kind.writtenTypes])
        (by simp +contextual [hk, Kind.parts]) (by simp +contextual [hk, Kind.parts])
  · next hk =>
      exact hfunction (by simp [hk, Kind.parameters?]) (by simp [hk, Kind.writtenTypes])
        (by simp +contextual [hk, Kind.parts]) (by simp +contextual [hk, Kind.parts])
  · next ps _ _ hk =>
      refine (signatures_proceeds hrun hs fun p hp => Kind.hasSignature_of_isParameter
        (ht.fits d (Kind.isParameter, p) (by simp [hk, Kind.parts, hp]))).bind ?_
      rintro inputs s₁ hkeeps ⟨hinputs, hheld⟩
      refine (contextOf_proceeds ht hrun hkeeps.orderly d).bind fun ctx s₂ hkeeps₂ hctx => ?_
      refine .pure hkeeps₂.orderly ⟨Ty.rooted_function.mpr ⟨hinputs, ?_⟩, ?_⟩
      · exact hctx.getD_selfType rfl rfl
      · constructor <;> simp [hk, Kind.writtenTypes, Kind.parameters?]
        exact fun p hp => hkeeps₂.holds p (hheld p hp)
  · next hk =>
      exact hfunction (by simp [hk, Kind.parameters?]) (by simp [hk, Kind.writtenTypes])
        (by simp +contextual [hk, Kind.parts]) (by simp +contextual [hk, Kind.parts])
  · next hk =>
      exact (varType_proceeds ht hrun hds hs d).mono fun _ _ _ h =>
        ⟨h, hplain (by simp [hk, Kind.writtenTypes]) (by simp [hk, Kind.parameters?])⟩
  · next htyped huntyped hfunction hmethod hinit hsubscript _ =>
      have hother : (e.tree.kind d).writtenTypes = [] ∧ (e.tree.kind d).parameters? = none := by
        cases hk : e.tree.kind d with
        | parameter x ascription =>
            cases ascription with
            | none => exact absurd hk (huntyped x)
            | some n => exact absurd hk (htyped x n)
        | function i x gs ps o b => exact absurd hk (hfunction i x gs ps o b)
        | method i x gs ps o vs => exact absurd hk (hmethod i x gs ps o vs)
        | init i ps b memberwise => exact absurd hk (hinit i ps b memberwise)
        | subscript i x ps o b => exact absurd hk (hsubscript i x ps o b)
        | _ => simp [hk, Kind.writtenTypes, Kind.parameters?, Kind.hasSignature,
            Kind.isDeclaration] at hd ⊢
      exact .pure hs ⟨rfl, hplain hother.1 hother.2⟩

theorem signature_proceeds (hs : s.Orderly e.tree) {d : NodeId}
    (hd : (e.tree.kind d).hasSignature = true) :
    Proceeds e (signature e run d) s fun a s' => a.rooted e.tree = true ∧ s'.Holds d := by
  have hexpr : (e.tree.kind d).isExpr = false := by
    cases hk : e.tree.kind d <;> simp_all [Kind.hasSignature, Kind.isDeclaration, Kind.isExpr]
  rw [signature]
  refine .typeOf ?_
  split
  · next a ha => exact .pure hs ⟨hs.types d a ha, .inl (by simp [ha])⟩
  · exact start_proceeds ht hs hexpr rfl
      (fun s₁ hs₁ => declaredType_proceeds ht hrun hds hs₁ hd) (.pure hs rfl)

omit hds in
theorem typeAlias_proceeds (hs : s.Orderly e.tree) {d : NodeId}
    (hd : (e.tree.kind d).isTypeAlias = true) :
    Proceeds e (typeAlias e run d) s fun a s' => a.rooted e.tree = true ∧ s'.Holds d := by
  rw [typeAlias]
  refine .typeOf ?_
  split
  · next a ha => exact .pure hs ⟨hs.types d a ha, .inl (by simp [ha])⟩
  · split
    · next x n hk =>
        refine start_proceeds (m := contextOf e run d >>= fun ctx => run (.typeExpr n ctx)) ht hs
          (by simp [hk, Kind.isExpr]) (bind_assoc _ _ _).symm (fun s₁ hs₁ => ?_) ?_
        · refine (typeExprIn_proceeds ht hrun hs₁ d
            (ht.fits d (Kind.isType, n) (by simp [hk, Kind.parts]))).mono fun a s' _ h => ⟨h.1, ?_⟩
          constructor <;> simp [hk, Kind.writtenTypes, Kind.parameters?]
          exact h.2
        · exact (complain_error_proceeds hs _ _).mono fun _ _ _ h => h.1
    · next halias =>
        cases hk : e.tree.kind d with
        | typeAlias i x n => exact absurd hk (halias i x n)
        | _ => simp [hk, Kind.isTypeAlias] at hd

omit ht hds in
theorem valueType_proceeds (hs : s.Orderly e.tree) {d : NodeId}
    (hd : (e.tree.kind d).isDeclaration = true) :
    Proceeds e (valueType e run d) s fun a _ => a.rooted e.tree = true := by
  rw [valueType]
  split
  · exact .pure hs rfl
  · exact .pure hs rfl
  · next hk =>
      exact (hrun.job (j := .typeAlias d) hs (by simp [Job.Fits, hk, Kind.isTypeAlias])
        fun _ => id).bind fun _ _ hkeeps h => .pure hkeeps.orderly h.1
  · next hk =>
      exact .pure hs (by simp [Ty.rooted, hk, Kind.isPlaceholder, Kind.isAssociated])
  · next hk => exact .pure hs (by simp [Ty.rooted, hk, Kind.isPlaceholder, Kind.isGeneric])
  · exact .pure hs rfl
  · next halias _ _ _ =>
      refine (hrun.job (j := .signature d) hs (Kind.hasSignature_of_isDeclaration hd ?_)
        fun _ => id).mono fun _ _ _ h => h.1
      cases hk : e.tree.kind d with
      | typeAlias i x n => exact (halias i x n hk).elim
      | _ => rfl

end WorkingOut

end LanguageService.Check
