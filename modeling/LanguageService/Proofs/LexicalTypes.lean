import LanguageService.Proofs.CheckedTypes
import LanguageService.Proofs.LexicalJobs

/-!
Working out the type of a declaration comes to an end, and leaves the names in scope as they are,
also when it has to check a binding somewhere else on the way.
-/
namespace LanguageService

theorem Tree.lt_size_of_isDeclaration {t : Tree} {d : NodeId}
    (h : (t.kind d).isDeclaration = true) : d < t.size := by
  refine Nat.lt_of_not_le fun hle => ?_
  have hkind : t.kind d = .wildcard := by rw [kind, get?_eq_none t hle]; rfl
  rw [hkind] at h
  cases h

namespace Check

variable {e : Env} {run : Run} {w : Nat} {s : State}

theorem Succeeds.of_ends {α : Type} {m : CheckM α} {Q : α → State → Prop} (h : Ends m s Q)
    (hsome : (m s).isSome = true) : Succeeds m s Q := by
  obtain ⟨⟨a, s'⟩, hm⟩ := Option.isSome_iff_exists.mp hsome
  exact ⟨a, s', hm, h a s' hm⟩

theorem Job.affords {j j' : Job} (hw : j.weight e.tree s < w + 1)
    (hrank : j'.rank e.tree < j.rank e.tree) : j'.weight e.tree s < w :=
  Nat.lt_of_lt_of_le (weight_lt_of_rank hrank) (Nat.le_of_lt_succ hw)

theorem withFrames_passes {α : Type} {region : NodeId → Prop} {frames : List Frame}
    {m : CheckM α} {Q : α → State → Prop} (hs : s.Lexical e)
    (hm : State.Lexical e { s with frames := frames } →
      Succeeds m { s with frames := frames } fun a s' =>
        Passes e region { s with frames := frames } s' ∧ Q a { s' with frames := s.frames }) :
    Succeeds (withFrames frames m) s fun a s' =>
      Passes e region s s' ∧ s'.frames = s.frames ∧ Q a s' := by
  have hs₁ : State.Lexical e { s with frames := frames } := hs.of_eq rfl rfl rfl fun _ => id
  have hout : Passes e region s { s with frames := frames } := ⟨.of_eq id rfl rfl rfl rfl, hs₁⟩
  rw [withFrames]
  refine .get (.bind (.modify (Q := fun _ s' => s' = _) rfl) ?_)
  rintro - s₁ rfl
  refine (hm hs₁).bind ?_
  rintro a s₂ ⟨hpasses, hresult⟩
  have hback : Passes e region s₂ { s₂ with frames := s.frames } :=
    ⟨.of_eq id rfl rfl rfl rfl, hpasses.lexical.of_eq rfl rfl rfl fun _ => id⟩
  refine .bind (.modify (Q := fun _ s' => s' = _) rfl) ?_
  rintro - s' rfl
  exact .pure ⟨(hout.trans hpasses).trans hback, rfl, hresult⟩

section Contexts

variable (hrun : Solves e run w)

include hrun

theorem extendContext_serves (he : e.Scoped) (hs : s.Lexical e) {ctx : Context}
    (hctx : ctx.Generic e.tree) {d : NodeId} (hw : (Job.subject d).weight e.tree s < w) :
    Succeeds (extendContext e run ctx d) s fun ctx' s' =>
      Serves e s s' ∧ ctx'.scope = ctx.scope ∧ ctx'.Generic e.tree := by
  have hself : Succeeds (extendContext.subjectSelf run ctx d) s fun ctx' s' =>
      Serves e s s' ∧ ctx'.scope = ctx.scope ∧ ctx'.Generic e.tree := by
    rw [extendContext.subjectSelf]
    split
    · exact .pure ⟨.refl hs, rfl, hctx⟩
    · exact (hrun.subject hs hw).bind fun _ _ h => .pure ⟨h, rfl, hctx⟩
  have hadd {gs : List NodeId} (hgs : ∀ g ∈ gs, (Kind.isGeneric, g) ∈ (e.tree.kind d).parts) :
      ∀ g ∈ ctx.generics ++ gs, (e.tree.kind g).isGeneric = true :=
    List.forall_mem_append.mpr ⟨hctx, fun g hg => he.tree.fits d _ (hgs g hg)⟩
  rw [extendContext]
  split
  · next hk => exact .pure ⟨.refl hs, rfl, hadd (by simp +contextual [hk, Kind.parts])⟩
  · next hk => exact .pure ⟨.refl hs, rfl, hadd (by simp +contextual [hk, Kind.parts])⟩
  · next hk => exact .pure ⟨.refl hs, rfl, hadd (by simp +contextual [hk, Kind.parts])⟩
  · exact .pure ⟨.refl hs, rfl, hctx⟩
  · exact hself
  · exact hself
  · exact .pure ⟨.refl hs, rfl, hctx⟩

theorem extendContexts_serves {ds : List NodeId} (he : e.Scoped) (hs : s.Lexical e)
    {ctx : Context} (hctx : ctx.Generic e.tree)
    (hw : ∀ d ∈ ds, (Job.subject d).weight e.tree s < w) :
    Succeeds (ds.foldlM (extendContext e run) ctx) s fun ctx' s' =>
      Serves e s s' ∧ ctx'.scope = ctx.scope ∧ ctx'.Generic e.tree := by
  induction ds generalizing ctx s with
  | nil => exact .pure ⟨.refl hs, rfl, hctx⟩
  | cons d ds ih =>
      rw [List.foldlM_cons]
      refine (extendContext_serves hrun he hs hctx (hw d (by simp))).bind ?_
      rintro ctx₁ s₁ ⟨hserves, hscope, hctx₁⟩
      have hw₁ : ∀ q ∈ ds, (Job.subject q).weight e.tree s₁ < w := fun q hq =>
        hserves.weight_lt (hw q (by simp [hq]))
      refine (ih hserves.lexical hctx₁ hw₁).mono ?_
      rintro ctx' s' ⟨hserves', hscope', hctx'⟩
      exact ⟨hserves.trans hserves', hscope'.trans hscope, hctx'⟩

theorem contextOf_serves (he : e.Scoped) (hs : s.Lexical e) {d : NodeId}
    (hw : ∀ q, d ≤ q → (Job.subject q).weight e.tree s < w) :
    Succeeds (contextOf e run d) s fun ctx s' =>
      Serves e s s' ∧ ctx.scope = d ∧ ctx.Generic e.tree :=
  extendContexts_serves hrun he hs (List.forall_mem_nil _) fun q hq =>
    hw q (he.owned.le_of_mem_ancestors hq)

theorem typeExprIn_serves (he : e.Scoped) (hs : s.Lexical e) {d n : NodeId}
    (hn : (e.tree.kind n).isType = true) (hhome : e.tree.typeHome? n = some d)
    (hsubject : ∀ q, d ≤ q → (Job.subject q).weight e.tree s < w)
    (hw : ∀ ctx, (Job.typeExpr n ctx).weight e.tree s < w) :
    Succeeds (contextOf e run d >>= fun ctx => run (.typeExpr n ctx)) s fun _ s' =>
      Serves e s s' := by
  refine (contextOf_serves hrun he hs hsubject).bind ?_
  rintro ctx s₁ ⟨hserves, hscope, hctx⟩
  have hw₁ := hserves.weight_lt (hw ctx)
  exact (hrun.typeExpr hserves.lexical ⟨hn, hscope ▸ hhome, hctx⟩ hw₁).mono
    fun _ _ h => hserves.trans h

theorem writtenType_serves (he : e.Scoped) (hs : s.Lexical e) {d n : NodeId}
    (hn : (Kind.isType, n) ∈ (e.tree.kind d).parts) (hd : (e.tree.kind d).isType = false)
    (hhome : ∀ c, e.tree.typeHomeAt c d = some d) (hfree : ∀ j : Job, j.weight e.tree s < w) :
    Succeeds (contextOf e run d >>= fun ctx => run (.typeExpr n ctx)) s fun _ s' =>
      Serves e s s' := by
  refine typeExprIn_serves hrun he hs (he.tree.fits d _ hn) ?_ (fun _ _ => hfree _) fun _ => hfree _
  rw [Tree.typeHome?_of_child he.tree (Tree.child_of_part hn) hd, hhome]

end Contexts

section Types

variable (he : e.Scoped) (hrun : Solves e run w)

include he hrun

theorem resolve_serves {ext n : NodeId} (hs : s.Lexical e)
    (hext : (e.tree.kind ext).isDeclaration = true) (hn : (e.tree.kind n).isType = true)
    (hhome : e.tree.typeHome? n = e.decls.parents.get? ext)
    (hw : (Job.subject ext).weight e.tree s < w + 1) :
    Succeeds (subject.resolve e run ext n) s fun _ s' => Serves e s s' := by
  have hremember {a : Ty} {s₁ : State} (hserves : Serves e s s₁) :
      Succeeds (do
        modify fun s => { s with subjects := s.subjects.insert ext a }
        pure a) s₁ fun _ s' => Serves e s s' := by
    refine .bind (.modify (Q := fun _ s' => Serves e s s') (hserves.trans ?_)) fun _ _ h => .pure h
    exact ⟨⟨.of_eq id rfl rfl rfl rfl, hserves.lexical.of_eq rfl rfl rfl fun _ => id⟩, rfl⟩
  have hlt : ext < e.tree.size := Tree.lt_size_of_isDeclaration hext
  rw [subject.resolve]
  split
  · next parent hparent =>
      have hbefore : ext < parent := he.owned.parents ext parent hparent
      rw [← bind_assoc]
      refine (typeExprIn_serves hrun he hs hn (hhome.trans hparent) (fun q hq => ?_)
      fun ctx => ?_).bind fun a s₁ h => hremember h
      · exact Job.affords hw (Job.rank_subject_lt hlt (Nat.lt_of_lt_of_le hbefore hq))
      · exact Job.affords hw (by simp only [Job.rank]; omega)
  · rw [pure_bind]
    exact hremember (.refl hs)

theorem subject_serves {ext : NodeId} (hs : s.Lexical e)
    (hw : (Job.subject ext).weight e.tree s < w + 1) :
    Succeeds (subject e run ext) s fun _ s' => Serves e s s' := by
  rw [subject]
  refine .get ?_
  split
  · exact .pure (.refl hs)
  · split
    · next i n ms hk =>
        have hn : (Kind.isType, n) ∈ (e.tree.kind ext).parts := by simp [hk, Kind.parts]
        refine resolve_serves he hrun hs (by simp [hk, Kind.isDeclaration])
          (he.tree.fits ext _ hn) ?_ hw
        rw [Tree.typeHome?_of_child he.tree (Tree.child_of_part hn) (by simp [hk, Kind.isType]),
          he.decls]
        simp [Tree.typeHomeAt, hk]
    · next i n ts ms hk =>
        have hn : (Kind.isType, n) ∈ (e.tree.kind ext).parts := by simp [hk, Kind.parts]
        refine resolve_serves he hrun hs (by simp [hk, Kind.isDeclaration])
          (he.tree.fits ext _ hn) ?_ hw
        rw [Tree.typeHome?_of_child he.tree (Tree.child_of_part hn) (by simp [hk, Kind.isType]),
          he.decls]
        simp [Tree.typeHomeAt, hk]
    · exact .pure (.refl hs)

omit he in
theorem typeDenoted_serves {d : NodeId} {find : CheckM Ty} (hs : s.Lexical e)
    (h : typeDenoted e run d = some find) (hw : (Job.typeAlias d).weight e.tree s < w) :
    Succeeds find s fun a s' => Serves e s s' ∧
      (a = .error ∧ ¬ s'.Clean ∨ (s'.program e.tree).HasValue d (.metatype a)) := by
  have hplain {a : Ty} (hvalue : (s.program e.tree).HasValue d (.metatype a)) :
      Succeeds (pure a) s fun a s' => Serves e s s' ∧
        (a = .error ∧ ¬ s'.Clean ∨ (s'.program e.tree).HasValue d (.metatype a)) :=
    .pure ⟨.refl hs, .inr hvalue⟩
  rw [typeDenoted] at h
  split at h
  · next hk =>
      cases h
      exact hplain (by simp [Program.HasValue, State.program, hk])
  · next hk =>
      cases h
      exact hplain (by simp [Program.HasValue, State.program, hk])
  · next hk =>
      cases h
      exact hplain (by simp [Program.HasValue, State.program, hk])
  · next hk =>
      cases h
      exact hplain (by simp [Program.HasValue, State.program, hk])
  · next hk =>
      cases h
      refine (hrun.typeAlias hs ⟨_, _, _, hk⟩ hw).mono fun a s' h => ⟨h.1, h.2.imp_right ?_⟩
      intro htype
      simp [Program.HasValue, State.program, hk, htype]
  · cases h

theorem typeName_serves {n : NodeId} {ctx : Context} {x : Name} (hs : s.Lexical e)
    (hk : e.tree.kind n = .nameType x) (hstands : Job.Stands e s (.typeExpr n ctx))
    (hw : (Job.typeExpr n ctx).weight e.tree s < w + 1) :
    Succeeds (typeName e run n x ctx) s fun a s' => Serves e s s' ∧ s'.TypeNamed e n x.text a := by
  obtain ⟨-, hhome, hctx⟩ := hstands
  have hcomplain (c : Complaint) (hc : c.isUndefinedName = false) :
      Succeeds (complain e x.site c >>= fun _ => pure Ty.error) s fun a s' =>
        Serves e s s' ∧ s'.TypeNamed e n x.text a :=
    (complain_serves hs _ hc).bind fun _ _ h => .pure ⟨h.1, .unknown h.2⟩
  have hrefer {s₁ : State} {a : Ty} (r : Reference) (hserves : Serves e s s₁)
      (hnamed : s₁.TypeNamed e n x.text a) :
      Succeeds (refer n r >>= fun _ => pure a) s₁ fun a s' =>
        Serves e s s' ∧ s'.TypeNamed e n x.text a :=
    (serves_refer_other hserves.lexical r (by simp [hk])).bind fun _ _ h =>
      .pure ⟨hserves.trans h, hnamed.later h.toGrows⟩
  rw [typeName]
  split
  · next hself =>
      split
      · exact .pure ⟨.refl hs, .self hself⟩
      · exact hcomplain _ rfl
  · dsimp only
    split
    · next g hg => exact hrefer _ (.refl hs) (.generic (hctx g (List.mem_of_find?_eq_some hg)))
    · split
      · next b hb => exact hrefer _ (.refl hs) (.builtin hb)
      · split
        · exact hcomplain _ rfl
        · next d hd =>
            split
            · exact hcomplain _ rfl
            · next find hfind =>
                have hw' : (Job.typeAlias d).weight e.tree s < w :=
                  Job.affords hw (by simp only [Job.rank]; omega)
                refine (typeDenoted_serves hrun hs hfind hw').bind ?_
                rintro a s₁ ⟨hserves, ⟨rfl, hunclean⟩ | hvalue⟩
                · exact hrefer _ hserves (.unknown hunclean)
                · exact hrefer _ hserves (.declared hhome hd
                    (Kind.isDeclaration_of_declared (he.sane.lookup hd).1) hvalue)

omit he in
theorem typeExprs_serves (ns : List NodeId) {ctx : Context} (hs : s.Lexical e)
    (hns : ∀ n ∈ ns, ∀ s, Job.Stands e s (.typeExpr n ctx))
    (hw : ∀ n ∈ ns, (Job.typeExpr n ctx).weight e.tree s < w) :
    Succeeds (ns.mapM fun n => run (.typeExpr n ctx)) s fun _ s' => Serves e s s' := by
  induction ns generalizing s with
  | nil => exact .pure (.refl hs)
  | cons n ns ih =>
      rw [List.mapM_cons]
      refine (hrun.typeExpr hs (hns n (by simp) s) (hw n (by simp))).bind fun a s₁ hserves => ?_
      have hw₁ : ∀ m ∈ ns, (Job.typeExpr m ctx).weight e.tree s₁ < w := fun m hm =>
        hserves.weight_lt (hw m (by simp [hm]))
      refine (ih hserves.lexical (fun m hm => hns m (by simp [hm])) hw₁).bind fun as s₂ h => ?_
      exact .pure (hserves.trans h)

theorem typeExpr_serves {n : NodeId} {ctx : Context} (hs : s.Lexical e)
    (hstands : Job.Stands e s (.typeExpr n ctx))
    (hw : (Job.typeExpr n ctx).weight e.tree s < w + 1) :
    Succeeds (typeExpr e run n ctx) s fun _ s' => Serves e s s' := by
  obtain ⟨hn, hhome, hctx⟩ := id hstands
  have hdecl : (e.tree.kind n).isDeclaration = false := by
    cases hk : e.tree.kind n <;> simp [hk, Kind.isType, Kind.isDeclaration] at hn ⊢
  have hexpr : (e.tree.kind n).isExpr = false := by
    simpa using Kind.not_isExpr_of_isType hn
  have hwrite {a : Ty} {s₁ : State} (hserves : Serves e s s₁)
      (hnamed : ∀ x, e.tree.kind n = .nameType x → s₁.TypeNamed e n x.text a) :
      Succeeds (setType n a >>= fun _ => pure a) s₁ fun _ s' => Serves e s s' :=
    (serves_setType_other he hserves.lexical a hdecl hexpr hnamed).bind fun _ _ h =>
      .pure (hserves.trans h)
  rw [typeExpr]
  split
  · next x hk =>
      refine (typeName_serves he hrun hs hk hstands hw).bind fun a s₁ h => hwrite h.1 ?_
      intro y hy
      cases hk.symm.trans hy
      exact h.2
  · next es hk =>
      have hpart : ∀ m ∈ es, (Kind.isType, m) ∈ (e.tree.kind n).parts := by
        simp [hk, Kind.parts]
      refine (typeExprs_serves hrun es hs (fun m hm s => ?_) fun m hm => ?_).bind
        fun as s₁ h => ?_
      · refine ⟨he.tree.fits n _ (hpart m hm), ?_, hctx⟩
        rw [Tree.typeHome?_of_type he.tree (Tree.child_of_part (hpart m hm)) hn, hhome]
      · have hchild := Tree.child_of_part (hpart m hm)
        exact Job.affords hw
          (Job.rank_typeExpr_lt (he.tree.child_lt n m hchild) (Tree.lt_size_of_child hchild))
      · rw [pure_bind]
        exact hwrite h (by simp [hk])
  · next hname _ =>
      rw [pure_bind]
      exact hwrite (.refl hs) fun x hx => absurd hx (hname x)

end Types

section WorkingOut

theorem serves_workedOut {s₁ : State} {d : NodeId} {ty : Ty} (he : e.Scoped)
    (hd : (e.tree.kind d).isDeclaration = true) (hnew : s.types.get? d = none)
    (hidle : s.inProgress.get? d = none)
    (hserves : Serves e { s with inProgress := s.inProgress.insert d () } s₁)
    (hvar : (e.tree.kind d).isVar = true →
      s₁.types.get? d = some ty ∨ s₁.types.get? d = none ∧ ty = .error) :
    Serves e s
      { s₁ with inProgress := s₁.inProgress.erase d, types := s₁.types.insert d ty } := by
  have htype : s₁.types.get? d = some ty ∨
      s₁.types.get? d = none ∧ ((e.tree.kind d).isVar = true → ty = .error) := by
    by_cases hv : (e.tree.kind d).isVar = true
    · exact (hvar hv).imp_right fun h => ⟨h.1, fun _ => h.2⟩
    · right
      rw [hserves.busy d hd (by simpa using hv) (by simp [Table.contains])]
      exact ⟨hnew, fun h => absurd h hv⟩
  have hwrite : Grows e.tree nowhere { s₁ with inProgress := s₁.inProgress.erase d }
      { s₁ with inProgress := s₁.inProgress.erase d, types := s₁.types.insert d ty } := by
    refine .setType ?_ ?_ ?_
    · intro old _ hold _
      rcases htype with h | h
      · exact Option.some.inj (h.symm.trans hold)
      · exact absurd (h.1.symm.trans hold) (by simp)
    · simp [Table.contains]
    · intro hv _ hsoft
      rcases htype with h | h
      · rcases hsoft with hnone | herror
        · exact absurd (h.symm.trans hnone) (by simp)
        · exact Option.some.inj (h.symm.trans herror)
      · exact h.2 hv
  refine ⟨⟨⟨hserves.clean, ?_, hserves.checked, ?_, hserves.referred, ?_, ?_, ?_, ?_,
    hserves.locals⟩, ?_⟩, hserves.frames⟩
  · intro i
    rw [Table.get?_erase]
    split
    · next heq => rw [← heq, hidle]
    · next hne => rw [hserves.inProgress, Table.get?_insert, if_neg hne]
  · exact fun x hx => hwrite.typed x (hserves.typed x hx)
  · exact fun i old hi hold hne => hwrite.decls i old hi (hserves.decls i old hi hold hne) hne
  · intro i hi hv hbusy
    have hne : d ≠ i := by
      rintro rfl
      simp [Table.contains, hidle] at hbusy
    rw [Table.get?_insert, if_neg hne]
    exact hserves.busy i hi hv (by simpa [Table.contains, hne] using hbusy)
  · exact fun v hv hout hguard hsoft =>
      hwrite.soft v hv hout (hserves.guards hguard) (hserves.soft v hv hout hguard hsoft)
  · exact fun b hb => (hserves.covers b hb).imp_right fun h x hx hexpr =>
      hwrite.typed x (h x hx hexpr)
  · have hs₁ : State.Lexical e { s₁ with inProgress := s₁.inProgress.erase d } :=
      hserves.lexical.of_eq rfl rfl rfl fun _ => id
    have hname (x : Name) : ¬ e.tree.IsName d x := by
      intro hx
      simp [hx.1, Kind.isDeclaration] at hd
    refine hs₁.setType he hwrite.extends (fun x hx => absurd hx (hname x)) ?_ ?_
      fun x hx => absurd hx (hname x)
    · intro hv herror
      rcases hvar hv with h | h
      · refine hs₁.bound d hv ?_
        rintro (hnone | herror')
        · exact absurd (h.symm.trans hnone) (by simp)
        · exact herror (Option.some.inj (h.symm.trans herror'))
      · exact absurd h.2 herror
    · intro x hx
      simp [hx, Kind.isDeclaration] at hd

theorem start_succeeds (d : NodeId) (s : State) :
    Succeeds (start d) s fun fresh s' =>
      (fresh = true → s.inProgress.get? d = none ∧
        s' = { s with inProgress := s.inProgress.insert d () }) ∧
      (fresh = false → s.inProgress.get? d ≠ none ∧ s' = s) := by
  refine .of_ends (start_spec d s) ?_
  change (if s.inProgress.contains d = true then _ else _ : CheckM Bool) s |>.isSome
  split <;> rfl

theorem affords_of_start {j : Job} {d : NodeId} (hd : d < e.tree.size)
    (hidle : s.inProgress.get? d = none) (hw : j.weight e.tree s < w + 1) (j' : Job) :
    j'.weight e.tree { s with inProgress := s.inProgress.insert d () } < w :=
  Nat.lt_of_lt_of_le (Job.weight_lt_of_room (State.room_start hd hidle) j j')
    (Nat.le_of_lt_succ hw)

theorem isBinding_of_isLocal {t : Tree} (ht : t.WellFormed) {b : NodeId} (hb : t.IsLocal b) :
    (t.kind b).isBinding = true := by
  obtain ⟨n, hn⟩ := hb
  exact ht.fits n (Kind.isBinding, b) (by simp [hn, Kind.parts])

theorem not_isLocal_of_isMember {t : Tree} (ht : t.WellFormed) {b : NodeId} (hb : t.IsMember b) :
    ¬ t.IsLocal b := by
  obtain ⟨p, hp⟩ := hb
  rintro ⟨n, hn⟩
  have hparent := ht.parent_unique n p b (by simp [Tree.children, hn, Kind.children])
    (Tree.child_of_part hp)
  have hcontainer := Kind.isContainer_of_member hp
  rw [← hparent, hn] at hcontainer
  cases hcontainer

theorem Job.Stands.of_memberBinding (he : e.Scoped) {b : NodeId} {ctx : Context}
    (hb : (e.tree.kind b).isBinding = true) (hmember : e.tree.IsMember b)
    (hreached : e.tree.Reached b) (hempty : s.frames = []) (hscope : ctx.scope = b)
    (hctx : ctx.Generic e.tree) :
    Job.Stands e s (.binding b ctx false) := by
  obtain ⟨p, hp⟩ := id hmember
  have hframes : e.tree.frames b = [] := by
    rw [Tree.frames, Tree.locals_of_member he.tree hp]
    rfl
  have hhome : e.tree.home? b = some ctx.scope := by
    rw [hscope, Tree.home?_of_member he.tree hp hb]
  exact ⟨hb, hreached, hhome, hctx, hempty.trans hframes.symm, by simp,
    fun _ => not_isLocal_of_isMember he.tree hmember⟩

variable (he : e.Scoped) (hrun : Solves e run w) (hs : s.Lexical e)

include hrun hs

theorem signatures_serves {ps : List NodeId}
    (hps : ∀ p ∈ ps, (e.tree.kind p).isDeclaration = true)
    (hfree : ∀ j : Job, j.weight e.tree s < w) :
    Succeeds (ps.mapM fun p => run (.signature p)) s fun _ s' => Serves e s s' := by
  induction ps generalizing s with
  | nil => exact .pure (.refl hs)
  | cons p ps ih =>
      rw [List.mapM_cons]
      refine (hrun.signature hs (hps p (by simp)) (hfree _)).bind ?_
      rintro a s₁ ⟨hserves, -⟩
      refine (ih hserves.lexical (fun q hq => hps q (by simp [hq]))
        fun j => hserves.weight_lt (hfree j)).bind fun as s₂ h => ?_
      exact .pure (hserves.trans h)

include he

theorem functionType_serves {d : NodeId} {ps : List NodeId} {output : Option NodeId}
    (hps : ∀ p ∈ ps, (Kind.isParameter, p) ∈ (e.tree.kind d).parts)
    (houtput : ∀ o ∈ output, (Kind.isType, o) ∈ (e.tree.kind d).parts)
    (hd : (e.tree.kind d).isType = false) (hhome : ∀ c, e.tree.typeHomeAt c d = some d)
    (hfree : ∀ j : Job, j.weight e.tree s < w) :
    Succeeds (functionType e run d ps output) s fun _ s' => Serves e s s' := by
  rw [functionType]
  refine (signatures_serves hrun hs (fun p hp => ?_) hfree).bind ?_
  · exact Kind.isDeclaration_of_isParameter (he.tree.fits d _ (hps p hp))
  · intro inputs s₁ hserves
    have hfree₁ (j : Job) := hserves.weight_lt (hfree j)
    split
    · exact .pure hserves
    · next o =>
        rw [← bind_assoc]
        exact (writtenType_serves hrun he hserves.lexical (houtput o rfl) hd hhome hfree₁).bind
          fun a s₂ h => .pure (hserves.trans h)

theorem varType_serves {v : NodeId} (hnew : s.types.get? v = none)
    (hfree : ∀ j : Job, j.weight e.tree s < w) :
    Succeeds (varType e run v) s fun a s' => Serves e s s' ∧
      (s'.types.get? v = some a ∨ s'.types.get? v = none ∧ a = .error) := by
  rw [varType]
  split
  · exact .pure ⟨.refl hs, .inr ⟨hnew, rfl⟩⟩
  · next b hb =>
      obtain ⟨hreached, hmember⟩ := he.owned.bindings v b hb
      have hbinding := he.sane.bindings v b hb
      refine (contextOf_serves hrun he hs fun _ _ => hfree _).bind ?_
      rintro ctx s₁ ⟨hserves, hscope, hctx⟩
      refine (withFrames_passes (Q := fun _ _ => True) hserves.lexical fun hs₂ =>
        (hrun (.binding b ctx false) _ hs₂ ?_ ?_).mono fun a s' h => ⟨h.1, trivial⟩).bind ?_
      · exact .of_memberBinding he hbinding hmember hreached rfl hscope hctx
      · exact hserves.weight_lt (hfree (.binding b ctx false))
      · rintro - s₃ ⟨hpasses, hback, -⟩
        refine .typeOf (.pure ⟨hserves.trans ⟨hpasses, hback⟩, ?_⟩)
        cases s₃.types.get? v with
        | none => exact .inr ⟨rfl, rfl⟩
        | some ty => exact .inl rfl

theorem declaredType_serves {d : NodeId} (hnew : s.types.get? d = none)
    (hfree : ∀ j : Job, j.weight e.tree s < w) :
    Succeeds (declaredType e run d) s fun a s' => Serves e s s' ∧
      ((e.tree.kind d).isVar = true →
        s'.types.get? d = some a ∨ s'.types.get? d = none ∧ a = .error) := by
  have hother {m : CheckM Ty} (hvar : (e.tree.kind d).isVar = false)
      (hm : Succeeds m s fun _ s' => Serves e s s') :
      Succeeds m s fun a s' => Serves e s s' ∧ ((e.tree.kind d).isVar = true →
        s'.types.get? d = some a ∨ s'.types.get? d = none ∧ a = .error) :=
    hm.mono fun _ _ h => ⟨h, by simp [hvar]⟩
  rw [declaredType]
  split
  · next x n hk =>
      exact hother (by simp [hk, Kind.isVar]) (writtenType_serves hrun he hs
        (by simp [hk, Kind.parts]) (by simp [hk, Kind.isType]) (by simp [Tree.typeHomeAt, hk])
        hfree)
  · next x hk =>
      refine hother (by simp [hk, Kind.isVar]) ?_
      split
      · next v hv =>
          exact (hrun.signature hs (storedFor_isDeclaration he.sane hv) (hfree _)).mono
            fun _ _ h => h.1
      · exact .pure (.refl hs)
  · next hk =>
      refine hother (by simp [hk, Kind.isVar]) (functionType_serves he hrun hs ?_ ?_
        (by simp [hk, Kind.isType]) (by simp [Tree.typeHomeAt, hk]) hfree)
      · simp +contextual [hk, Kind.parts]
      · simp +contextual [hk, Kind.parts]
  · next hk =>
      refine hother (by simp [hk, Kind.isVar]) (functionType_serves he hrun hs ?_ ?_
        (by simp [hk, Kind.isType]) (by simp [Tree.typeHomeAt, hk]) hfree)
      · simp +contextual [hk, Kind.parts]
      · simp +contextual [hk, Kind.parts]
  · next ps _ _ hk =>
      refine hother (by simp [hk, Kind.isVar]) ?_
      refine (signatures_serves hrun hs (fun p hp => ?_) hfree).bind fun inputs s₁ hserves => ?_
      · exact Kind.isDeclaration_of_isParameter
          (he.tree.fits d (Kind.isParameter, p) (by simp [hk, Kind.parts, hp]))
      · refine (contextOf_serves hrun he hserves.lexical
          fun _ _ => hserves.weight_lt (hfree _)).bind fun ctx s₂ h => ?_
        exact .pure (hserves.trans h.1)
  · next hk =>
      refine hother (by simp [hk, Kind.isVar]) (functionType_serves he hrun hs ?_ ?_
        (by simp [hk, Kind.isType]) (by simp [Tree.typeHomeAt, hk]) hfree)
      · simp +contextual [hk, Kind.parts]
      · simp +contextual [hk, Kind.parts]
  · exact (varType_serves he hrun hs hnew hfree).mono fun _ _ h => ⟨h.1, fun _ => h.2⟩
  · exact .pure ⟨.refl hs, fun _ => .inr ⟨hnew, rfl⟩⟩

theorem signature_serves {d : NodeId} (hd : (e.tree.kind d).isDeclaration = true)
    (hw : (Job.signature d).weight e.tree s < w + 1) :
    Succeeds (signature e run d) s fun a s' =>
      Serves e s s' ∧ (a = .error ∨ s'.types.get? d = some a) := by
  rw [signature]
  refine .typeOf ?_
  split
  · next ty hty => exact .pure ⟨.refl hs, .inr hty⟩
  · next hnew =>
      refine (start_succeeds d s).bind ?_
      rintro fresh s₁ ⟨hfresh, hbusy⟩
      split
      · next h =>
          obtain ⟨hidle, rfl⟩ := hfresh h
          have hfree := affords_of_start (Tree.lt_size_of_isDeclaration hd) hidle hw
          have hs₁ : State.Lexical e { s with inProgress := s.inProgress.insert d () } :=
            hs.of_eq rfl rfl rfl fun _ => id
          refine (declaredType_serves he hrun hs₁ hnew hfree).bind ?_
          rintro ty s₂ ⟨hserves, hvar⟩
          refine .bind (.modify (Q := fun _ s' => s' = _) rfl) ?_
          rintro - s₃ rfl
          refine .bind (.modify (Q := fun _ s' => s' = _) rfl) ?_
          rintro - s₄ rfl
          exact .pure ⟨serves_workedOut he hd hnew hidle hserves hvar, .inr (by simp)⟩
      · next h =>
          obtain ⟨-, rfl⟩ := hbusy (by simpa using h)
          exact .pure ⟨.refl hs, .inl rfl⟩

theorem typeAlias_serves {d : NodeId}
    (hd : ∃ introducer x aliased, e.tree.kind d = .typeAlias introducer x aliased)
    (hw : (Job.typeAlias d).weight e.tree s < w + 1) :
    Succeeds (typeAlias e run d) s fun a s' =>
      Serves e s s' ∧ (a = .error ∧ ¬ s'.Clean ∨ s'.types.get? d = some a) := by
  obtain ⟨introducer, x, aliased, hk⟩ := hd
  have hd : (e.tree.kind d).isDeclaration = true := by simp [hk, Kind.isDeclaration]
  rw [typeAlias]
  refine .typeOf ?_
  split
  · next ty hty => exact .pure ⟨.refl hs, .inr hty⟩
  · next hnew =>
      rw [hk]
      refine (start_succeeds d s).bind ?_
      rintro fresh s₁ ⟨hfresh, hbusy⟩
      split
      · next h =>
          obtain ⟨hidle, rfl⟩ := hfresh h
          have hfree := affords_of_start (Tree.lt_size_of_isDeclaration hd) hidle hw
          have hs₁ : State.Lexical e { s with inProgress := s.inProgress.insert d () } :=
            hs.of_eq rfl rfl rfl fun _ => id
          rw [← bind_assoc]
          refine (writtenType_serves hrun he hs₁ (by simp [hk, Kind.parts])
            (by simp [hk, Kind.isType]) (by simp [Tree.typeHomeAt, hk]) hfree).bind
              fun ty s₂ hserves => ?_
          refine .bind (.modify (Q := fun _ s' => s' = _) rfl) ?_
          rintro - s₃ rfl
          refine .bind (.modify (Q := fun _ s' => s' = _) rfl) ?_
          rintro - s₄ rfl
          exact .pure ⟨serves_workedOut he hd hnew hidle hserves (by simp [hk, Kind.isVar]),
            .inr (by simp)⟩
      · next h =>
          obtain ⟨-, rfl⟩ := hbusy (by simpa using h)
          exact (complain_serves hs _ rfl).bind fun _ _ h => .pure ⟨h.1, .inl ⟨rfl, h.2⟩⟩

omit he in
theorem valueType_serves {d : NodeId} (hd : (e.tree.kind d).isDeclaration = true)
    (hsignature : (Job.signature d).weight e.tree s < w)
    (halias : (Job.typeAlias d).weight e.tree s < w) :
    Succeeds (valueType e run d) s fun a s' => Serves e s s' ∧ ∀ b, a = .metatype b →
      b = .error ∧ ¬ s'.Clean ∨ (s'.program e.tree).HasValue d a := by
  have hknown {a : Ty} (hvalue : (s.program e.tree).HasValue d a) :
      Succeeds (pure a) s fun a s' => Serves e s s' ∧ ∀ b, a = .metatype b →
        b = .error ∧ ¬ s'.Clean ∨ (s'.program e.tree).HasValue d a :=
    .pure ⟨.refl hs, fun _ _ => .inr hvalue⟩
  rw [valueType]
  split
  · next hk => exact hknown (by simp [Program.HasValue, State.program, hk])
  · next hk => exact hknown (by simp [Program.HasValue, State.program, hk])
  · next hk =>
      refine (hrun.typeAlias hs ⟨_, _, _, hk⟩ halias).bind ?_
      rintro a s₁ ⟨hserves, htype⟩
      refine .pure ⟨hserves, ?_⟩
      rintro b ⟨⟩
      simpa [Program.HasValue, State.program, hk] using htype
  · next hk => exact hknown (by simp [Program.HasValue, State.program, hk])
  · next hk => exact hknown (by simp [Program.HasValue, State.program, hk])
  · next hk => exact hknown (by simp [Program.HasValue, State.program, hk])
  · next h₁ h₂ h₃ h₄ h₅ h₆ =>
      refine (hrun.signature hs hd hsignature).mono ?_
      rintro a s₁ ⟨hserves, htype⟩
      refine ⟨hserves, ?_⟩
      rintro b rfl
      right
      rw [Program.HasValue]
      split
      · next hk => exact absurd hk (h₁ _ _ _ _ _)
      · next hk => exact absurd hk (h₂ _ _ _)
      · next hk => exact absurd hk (h₃ _ _ _)
      · next hk => exact absurd hk (h₄ _ _)
      · next hk => exact absurd hk (h₅ _)
      · next hk => exact absurd hk (h₆ _ _ _)
      · exact htype.resolve_left (by simp)

end WorkingOut

end Check

end LanguageService
