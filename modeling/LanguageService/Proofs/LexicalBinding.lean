import LanguageService.Proofs.CheckedBinding
import LanguageService.Proofs.LexicalExpr

namespace LanguageService.Check

variable {e : Env} {run : Run} {w : Nat} {s : State}

section Covering

variable {t : Tree} (ht : t.WellFormed) {n : NodeId}

theorem State.Covers.of_children (hn : (t.kind n).isExpr = false)
    (h : ∀ c ∈ t.children n, s.Covers t c) : s.Covers t n := by
  intro x hx hexpr
  rcases Tree.below_iff.mp hx with rfl | ⟨c, hc, hx⟩
  · simp [hn] at hexpr
  · exact h c hc x hx hexpr

include ht

theorem State.Covers.of_isInert (hn : (t.kind n).isInert = true) : s.Covers t n := by
  intro x hx hexpr
  have hinert := Tree.isInert_of_below ht hn hx
  cases hk : t.kind x <;> simp [hk, Kind.isExpr, Kind.isInert, Kind.isType, Kind.isParameter,
    Kind.isGeneric, Kind.isBindingPattern, Kind.isPattern, Kind.isVar] at hexpr hinert

end Covering

section Patterns

variable (he : e.Scoped)

include he

theorem passes_setVar {v : NodeId} (ty : Ty) (hs : s.Lexical e)
    (hv : (e.tree.kind v).isVar = true) (hsoft : s.Soft v) (hguard : s.Guards e.tree v) :
    Passes e (· = v) s { s with types := s.types.insert v ty } := by
  have hgrows : Grows e.tree (· = v) s { s with types := s.types.insert v ty } := by
    refine .setType ?_ (by simp [hv]) fun _ hne => absurd rfl hne
    intro old _ hold hne
    rcases hsoft with hnone | herror
    · exact absurd (hnone.symm.trans hold) (by simp)
    · exact absurd (Option.some.inj (hold.symm.trans herror)) (hne hv)
  have hname (x : Name) : ¬ e.tree.IsName v x := by
    intro hx
    simp [hx.1, Kind.isVar] at hv
  refine ⟨hgrows, hs.setType he hgrows.extends (fun x hx => absurd hx (hname x))
    (fun _ _ => hguard) (fun x hx => ?_) fun x hx => absurd hx (hname x)⟩
  simp [hx, Kind.isVar] at hv

theorem bindVar_passes {v : NodeId} (ty : Ty) (inBody : Bool) (hs : s.Lexical e)
    (hv : (e.tree.kind v).isVar = true) (hsoft : s.Soft v) (hguard : s.Guards e.tree v) :
    Succeeds (bindVar e v ty inBody) s fun _ s' => Passes e (· = v) s s' ∧
      s'.frames = if inBody then e.tree.bindAll [v] s.frames else s.frames := by
  obtain ⟨x, hx⟩ : ∃ x, (e.tree.kind v).declares = some x := by
    cases hk : e.tree.kind v <;> simp [hk, Kind.isVar, Kind.declares] at hv ⊢
  unfold bindVar
  rw [hx]
  cases inBody with
  | false => exact .modify ⟨passes_setVar he ty hs hv hsoft hguard, rfl⟩
  | true =>
      have hbound : Passes e (· = v) s { s with frames := bindLocal x.text v s.frames } :=
        ⟨.of_eq id rfl rfl rfl rfl, hs.of_eq rfl rfl rfl fun _ => id⟩
      refine .bind (.modify (Q := fun _ s' => s' = _) rfl) ?_
      rintro - s₁ rfl
      refine .modify ⟨hbound.trans (passes_setVar he ty hbound.lexical hv hsoft hguard), ?_⟩
      exact (Tree.bindAll_singleton hx s.frames).symm

omit he in
theorem parts_serves (hs : s.Lexical e) (p : NodeId) (ty : Ty) (n : Nat) :
    Succeeds (parts e p ty n) s fun ts s' => Serves e s s' ∧ ts.length = n := by
  have hrefuse : Succeeds (parts.refuse e p ty n (List.replicate n .error)) s fun ts s' =>
      Serves e s s' ∧ ts.length = n :=
    (serves_complain hs _ rfl).bind fun _ _ h => .pure ⟨h, by simp⟩
  unfold parts
  dsimp only
  split
  · exact .pure ⟨.refl hs, by simp⟩
  · split
    · next hlength => exact .pure ⟨.refl hs, hlength⟩
    · exact hrefuse
  · exact hrefuse

omit he in
theorem State.Awaits.later {t : Tree} {region : NodeId → Prop} {s' : State} {p : NodeId}
    (h : s.Awaits t p) (hgrows : Grows t region s s')
    (hout : ∀ v, (t.kind v).isVar = true → ¬ (t.Below p v ∧ region v)) : s'.Awaits t p := by
  intro v hbelow hv
  obtain ⟨hsoft, hguard⟩ := h v hbelow hv
  exact ⟨hgrows.soft v hv (fun hin => hout v hv ⟨hbelow, hin⟩) hguard hsoft,
    hgrows.guards hguard⟩

variable (hrun : Solves e run w)

include hrun

omit he in
theorem patternParts_passes {inBody : Bool} {l : List (NodeId × Ty)} (hs : s.Lexical e)
    (hl : ∀ q ∈ l, (e.tree.kind q.1).isPattern = true ∧ s.Awaits e.tree q.1)
    (hapart : l.Pairwise fun q q' => ∀ x, ¬ (e.tree.Below q.1 x ∧ e.tree.Below q'.1 x))
    (hw : ∀ q ∈ l, (Job.pattern q.1 q.2 inBody).weight e.tree s < w) :
    Succeeds (patternParts run inBody l) s fun _ s' =>
      Passes e (fun x => ∃ q ∈ l, e.tree.Below q.1 x) s s' ∧
        s'.frames = if inBody then
          e.tree.bindAll (l.flatMap fun q => e.tree.patternVars q.1) s.frames else s.frames := by
  induction l generalizing s with
  | nil =>
      refine .pure ⟨.refl hs, ?_⟩
      rw [List.flatMap_nil, Tree.bindAll_nil, ite_self]
  | cons q l ih =>
      obtain ⟨p, ty⟩ := q
      rw [List.pairwise_cons] at hapart
      rw [patternParts]
      refine (hrun (.pattern p ty inBody) s hs (hl (p, ty) (by simp))
        (hw (p, ty) (by simp))).bind ?_
      rintro a s₁ ⟨hpasses, hframes⟩
      have hl₁ : ∀ q ∈ l, (e.tree.kind q.1).isPattern = true ∧ s₁.Awaits e.tree q.1 := by
        intro q hq
        obtain ⟨hpattern, hawaits⟩ := hl q (by simp [hq])
        exact ⟨hpattern, hawaits.later hpasses.toGrows fun x _ hx => hapart.1 q hq x hx.symm⟩
      have hw₁ : ∀ q ∈ l, (Job.pattern q.1 q.2 inBody).weight e.tree s₁ < w := fun q hq =>
        hpasses.weight_lt (hw q (by simp [hq]))
      refine (ih hpasses.lexical hl₁ hapart.2 hw₁).mono ?_
      rintro - s₂ ⟨hpasses', hframes'⟩
      refine ⟨.cons hpasses hpasses', ?_⟩
      rw [hframes', hframes]
      cases inBody with
      | false => rfl
      | true => exact (Tree.bindAll_append e.tree _ _ s.frames).symm

theorem pattern_passes {p : NodeId} {ty : Ty} {inBody : Bool} (hs : s.Lexical e)
    (hstands : Job.Stands e s (.pattern p ty inBody))
    (hw : (Job.pattern p ty inBody).weight e.tree s < w + 1) :
    Succeeds (pattern e run p ty inBody) s fun _ s' => Passes e (e.tree.Below p) s s' ∧
      s'.frames = if inBody then e.tree.bindAll (e.tree.patternVars p) s.frames
        else s.frames := by
  obtain ⟨hp, hvars⟩ := hstands
  have hvarsOf := Tree.patternVars_eq he.tree p
  rw [pattern]
  split
  · next v hk =>
      rw [hk] at hvarsOf
      have hchild : (Kind.isVar, v) ∈ (e.tree.kind p).parts := by simp [hk, Kind.parts]
      have hbelow := Tree.below_child (Tree.child_of_part hchild)
      have hv := he.tree.fits p _ hchild
      obtain ⟨hsoft, hguard⟩ := hvars v hbelow hv
      rw [hvarsOf]
      refine (bindVar_passes he ty inBody hs hv hsoft hguard).mono fun _ s' h => ⟨?_, h.2⟩
      exact h.1.widen fun x hx => hx ▸ hbelow
  · next es hk =>
      rw [hk] at hvarsOf
      have hchildren : e.tree.children p = es := by rw [Tree.children, hk, Kind.children]
      refine (parts_serves hs p ty es.length).bind ?_
      rintro ts s₁ ⟨hserves, hlength⟩
      have hzip : (es.zip ts).map Prod.fst = es := List.map_fst_zip (by omega)
      have hmem : ∀ q ∈ es.zip ts, q.1 ∈ e.tree.children p := by
        intro q hq
        rw [hchildren]
        exact (List.of_mem_zip hq).1
      have hparts : e.tree.patternVars p =
          (es.zip ts).flatMap fun q => e.tree.patternVars q.1 := by
        calc e.tree.patternVars p = es.flatMap e.tree.patternVars := hvarsOf
          _ = ((es.zip ts).map Prod.fst).flatMap e.tree.patternVars := by rw [hzip]
          _ = (es.zip ts).flatMap fun q => e.tree.patternVars q.1 := List.flatMap_map ..
      refine (patternParts_passes hrun hserves.lexical (l := es.zip ts) (fun q hq => ?_) ?_
        fun q hq => ?_).mono ?_
      · refine ⟨he.tree.fits p (Kind.isPattern, q.1) ?_, ?_⟩
        · simp [hk, Kind.parts, (List.of_mem_zip hq).1]
        · intro v hbelow hv
          obtain ⟨hsoft, hguard⟩ := hvars v (.of_child (hmem q hq) hbelow) hv
          exact ⟨hserves.soft v hv id hguard hsoft, hserves.guards hguard⟩
      · have hpairwise := Tree.children_pairwise he.tree p
        rwa [hchildren, ← hzip, List.pairwise_map] at hpairwise
      · refine hserves.weight_lt (Job.affords hw ?_)
        exact Job.rank_pattern_lt (he.tree.child_lt p _ (hmem q hq))
          (Tree.lt_size_of_child (hmem q hq))
      · rintro - s₂ ⟨hpasses, hframes⟩
        rw [hserves.frames] at hframes
        refine ⟨hserves.anywhere.trans (hpasses.widen ?_), ?_⟩
        · rintro x ⟨q, hq, hx⟩
          exact .of_child (hmem q hq) hx
        · rw [hframes, hparts]
  · next hk => simp [hk, Kind.isPattern] at hp
  · refine .pure ⟨.refl hs, ?_⟩
    have hnone : e.tree.patternVars p = [] := by
      cases hk : e.tree.kind p <;> simp_all [Kind.isPattern]
    rw [hnone, Tree.bindAll_nil, ite_self]

end Patterns

section Bindings

variable {b p sub : NodeId} {initializer ascription : Option NodeId} {introducer : Site}
  {how : Introducer} {ctx : Context}
  (he : e.Scoped) (hrun : Solves e run w) (hb : e.tree.kind b = .binding p initializer)
  (hp : e.tree.kind p = .bindingPattern introducer how sub ascription)

include he hrun hb hp

theorem bindingTypes_serves (hs : s.Lexical e) (hreached : e.tree.Reached b)
    (hhome : e.tree.home? b = some ctx.scope) (hctx : ctx.Generic e.tree)
    (hframes : s.frames = e.tree.frames b)
    (hfree : ∀ j : Job, j.weight e.tree s < w) :
    Succeeds (bindingTypes e run p ascription initializer ctx) s fun _ s' =>
      Serves e s s' ∧ ∀ i, initializer = some i → s'.Covers e.tree i := by
  have hascription : Succeeds (ascription.mapM fun a => run (.typeExpr a ctx)) s fun _ s' =>
      Serves e s s' := by
    cases ascription with
    | none => exact .pure (.refl hs)
    | some a =>
        have ha : (Kind.isType, a) ∈ (e.tree.kind p).parts := by simp [hp, Kind.parts]
        have hpb : p ∈ e.tree.children b := by simp [Tree.children, hb, Kind.children]
        have htype : e.tree.typeHome? a = some ctx.scope := by
          rw [Tree.typeHome?_of_child he.tree (Tree.child_of_part ha) (by simp [hp, Kind.isType])]
          simp only [Tree.typeHomeAt, hp]
          rw [Tree.home?_of_child he.tree hpb (by simp [hp, Kind.hasParameters, Kind.parameters?])
            (by simp [hp, Kind.isBinding]), hhome]
        rw [Option.mapM_some, map_eq_pure_bind]
        exact (hrun.typeExpr hs ⟨he.tree.fits p _ ha, htype, hctx⟩ (hfree _)).bind
          fun _ _ h => .pure h
  have hinitializer {s₁ : State} (hserves : Serves e s s₁) :
      Succeeds (initializer.mapM fun i => run (.expr i ctx)) s₁ fun _ s' =>
        Serves e s₁ s' ∧ ∀ i, initializer = some i → s'.Covers e.tree i := by
    cases initializer with
    | none => exact .pure ⟨.refl hserves.lexical, fun _ hi => by cases hi⟩
    | some i =>
        have hi : (Kind.isExpr, i) ∈ (e.tree.kind b).parts := by simp [hb, Kind.parts]
        have hchild := Tree.child_of_part hi
        have hexpr := he.tree.fits b _ hi
        obtain ⟨hhome', hframes'⟩ := Tree.scope_of_expr he.tree
          (by simp [hb, Kind.parameters?]) (by simp [hb, Kind.isBrace]) hchild hexpr
        have hstands : Job.Stands e s₁ (.expr i ctx) :=
          ⟨hexpr, hreached.child hchild, hhome'.trans hhome,
            hserves.frames.trans (hframes.trans hframes'.symm)⟩
        rw [Option.mapM_some, map_eq_pure_bind]
        refine (hrun.expr hserves.lexical hstands (hserves.weight_lt (hfree _))).bind ?_
        rintro ty s₂ ⟨hserves', hcovers, -⟩
        refine .pure ⟨hserves', ?_⟩
        rintro _ ⟨⟩
        exact hcovers
  rw [bindingTypes_eq]
  refine hascription.bind fun declared s₁ hserves₁ => ?_
  refine (hinitializer hserves₁).bind ?_
  rintro found s₂ ⟨hserves₂, hcovers⟩
  have hserves := hserves₁.trans hserves₂
  have hend {s₃ : State} (hserves₃ : Serves e s₂ s₃) :
      Succeeds (setType p ((declared.or found).getD .error) >>= fun _ =>
        pure ((declared.or found).getD .error)) s₃ fun _ s' =>
        Serves e s s' ∧ ∀ i, initializer = some i → s'.Covers e.tree i := by
    refine (serves_setType_other he hserves₃.lexical _ (by simp [hp, Kind.isDeclaration])
      (by simp [hp, Kind.isExpr]) (by simp [hp])).bind fun _ s' hserves₄ => ?_
    have hafter := hserves₃.trans hserves₄
    exact .pure ⟨hserves.trans hafter, fun i hi => (hcovers i hi).later hafter.toGrows⟩
  split
  · exact (serves_expect hserves.lexical _ _ _).bind fun _ s₃ h => hend h
  · exact hend (.refl hserves.lexical)

theorem unchecked_passes (inBody : Bool) (hs : s.Lexical e) (hreached : e.tree.Reached b)
    (hhome : e.tree.home? b = some ctx.scope) (hctx : ctx.Generic e.tree)
    (hframes : s.frames = e.tree.frames b)
    (hchecked : s.IsChecked b)
    (hsoft : ∀ v, e.tree.Below b v → (e.tree.kind v).isVar = true → s.Soft v)
    (hfree : ∀ j : Job, j.weight e.tree s < w) :
    Succeeds (bindingTypes e run p ascription initializer ctx >>= fun ty =>
      run (.pattern sub ty inBody)) s fun _ s' =>
        Passes e (e.tree.Below b) s s' ∧ s'.Covers e.tree b ∧
          s'.frames = if inBody then e.tree.bindAll (e.tree.patternVars p) s.frames
            else s.frames := by
  have hbinding : (e.tree.kind b).isBinding = true := by rw [hb]; rfl
  have hpb : p ∈ e.tree.children b := by simp [Tree.children, hb, Kind.children]
  have hsub : (Kind.isPattern, sub) ∈ (e.tree.kind p).parts := by simp [hp, Kind.parts]
  have hbelow {x : NodeId} (hx : e.tree.Below sub x) : e.tree.Below b x :=
    .of_child hpb (.of_child (Tree.child_of_part hsub) hx)
  have hvars : e.tree.patternVars p = e.tree.patternVars sub := by
    rw [Tree.patternVars_eq he.tree p, hp]
  refine (bindingTypes_serves he hrun hb hp hs hreached hhome hctx hframes hfree).bind ?_
  rintro ty s₁ ⟨hserves, hinitializer⟩
  have hawaits : s₁.Awaits e.tree sub := by
    intro v hv hvar
    have hguard := guards_of_below he.tree hbinding hchecked (hbelow hv)
    exact ⟨hserves.soft v hvar id hguard (hsoft v (hbelow hv) hvar), hserves.guards hguard⟩
  refine (hrun (.pattern sub ty inBody) s₁ hserves.lexical ⟨he.tree.fits p _ hsub, hawaits⟩
    (hserves.weight_lt (hfree _))).mono ?_
  rintro a s₂ ⟨hpasses, hbound⟩
  refine ⟨hserves.anywhere.trans (hpasses.widen fun x => hbelow), ?_, ?_⟩
  · refine .of_children (by simp [hb, Kind.isExpr]) fun c hc => ?_
    rw [Tree.children, hb, Kind.children, List.mem_cons, Option.mem_toList] at hc
    rcases hc with rfl | hi
    · exact .of_isInert he.tree (by simp [hp, Kind.isInert, Kind.isBindingPattern])
    · exact (hinitializer c hi).later hpasses.toGrows
  · rw [hvars, hbound, hserves.frames]

end Bindings

section Checking

variable {b : NodeId} {ctx : Context} {inBody : Bool} (he : e.Scoped)

include he

theorem passes_checked {s₁ : State} (hb : (e.tree.kind b).isBinding = true)
    (hunchecked : ¬ s.IsChecked b) (hlocal : inBody = false → ¬ e.tree.IsLocal b)
    (hpasses : Passes e (e.tree.Below b)
      { s with checkedBindings := s.checkedBindings.insert b () } s₁)
    (hcovers : s₁.Covers e.tree b) :
    Passes e (Job.Reach e.tree (.binding b ctx inBody)) s s₁ := by
  have hmarked (c : NodeId) := isChecked_insert s b c
  refine ⟨⟨hpasses.clean, hpasses.inProgress,
    fun c hc => hpasses.checked c ((hmarked c).mpr (.inr hc)), hpasses.typed, hpasses.referred, hpasses.decls, hpasses.busy, ?_, ?_, ?_⟩, hpasses.lexical⟩
  · intro v hv hout hguard hsoft
    have houtside : ¬ e.tree.Below b v := by
      cases inBody with
      | true => exact hout
      | false => exact fun hbelow => hunchecked (hguard b hb hbelow)
    refine hpasses.soft v hv houtside (fun c hc hbelow => ?_) hsoft
    exact (hmarked c).mpr (.inr (hguard c hc hbelow))
  · intro c hc
    rcases hpasses.covers c hc with hc | hc
    · rcases (hmarked c).mp hc with rfl | hc
      · exact .inr hcovers
      · exact .inl hc
    · exact .inr hc
  · intro c hclocal hc
    have hor : c = b ∨ s.IsChecked c := by
      rcases hpasses.locals c hclocal hc with hc | hbelow
      · exact (hmarked c).mp hc
      · exact .inl (Tree.binding_unique he.tree (isBinding_of_isLocal he.tree hclocal) hb (.refl c)
          hbelow)
    rcases hor with rfl | hc
    · cases inBody with
      | true => exact .inr (.refl c)
      | false => exact absurd hclocal (hlocal rfl)
    · exact .inl hc

theorem binding_passes (hrun : Solves e run w) (hs : s.Lexical e)
    (hstands : Job.Stands e s (.binding b ctx inBody))
    (hw : (Job.binding b ctx inBody).weight e.tree s < w + 1) :
    Succeeds (binding e run b ctx inBody) s fun _ s' =>
      Passes e (Job.Reach e.tree (.binding b ctx inBody)) s s' ∧
        Job.Leaves e s .void s' (.binding b ctx inBody) := by
  obtain ⟨hbinding, hreached, hhome, hctx, hframes, hinside, houtside⟩ := hstands
  rw [binding]
  refine .get ?_
  split
  · next hchecked =>
      refine .pure ⟨.refl hs, hchecked, fun _ => rfl, fun hbody => ?_⟩
      exact absurd hchecked (hinside hbody).2
  · next hunchecked =>
      refine .bind (.modify (Q := fun _ s' => s' = _) rfl) ?_
      rintro - s₁ rfl
      obtain ⟨p, initializer, hb⟩ := Kind.exists_of_isBinding hbinding
      have hp := he.tree.fits b (Kind.isBindingPattern, p) (by simp [hb, Kind.parts])
      obtain ⟨introducer, how, sub, ascription, hp⟩ := Kind.exists_of_isBindingPattern hp
      have hmarked (c : NodeId) := isChecked_insert s b c
      have hs₁ : State.Lexical e { s with checkedBindings := s.checkedBindings.insert b () } :=
        hs.of_eq rfl rfl rfl fun c hc => (hmarked c).mpr (.inr hc)
      have hsoft : ∀ v, e.tree.Below b v → (e.tree.kind v).isVar = true → s.Soft v := by
        intro v hv hvar
        by_contra hsoft
        exact hunchecked (hs.bound v hvar hsoft b hbinding hv)
      have hfree : ∀ j : Job, j.weight e.tree
          { s with checkedBindings := s.checkedBindings.insert b () } < w := fun j =>
        Nat.lt_of_lt_of_le (Job.weight_lt_of_room (State.room_check
          (Tree.lt_size_of_child (c := p) (by simp [Tree.children, hb, Kind.children]))
          hunchecked) _ j) (Nat.le_of_lt_succ hw)
      simp only [hb, hp]
      rw [← bind_assoc]
      refine (unchecked_passes he hrun hb hp inBody hs₁ hreached hhome hctx hframes
        ((hmarked b).mpr (.inl rfl)) hsoft hfree).bind ?_
      rintro - s₂ ⟨hpasses, hcovers, hbound⟩
      refine .pure ⟨passes_checked he hbinding hunchecked houtside hpasses hcovers,
        hpasses.checked b ((hmarked b).mpr (.inl rfl)), ?_, ?_⟩
      · rintro rfl
        exact hbound
      · rintro rfl p' i' hb'
        obtain ⟨rfl, -⟩ := Kind.binding.inj (hb.symm.trans hb')
        exact hbound

end Checking

end LanguageService.Check
