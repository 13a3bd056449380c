import LanguageService.Proofs.AgreementBinding

namespace LanguageService.Check

variable {e : Env} {C : Prop} {d : NodeId} {s₀ s s' : State} {fuel : Nat}

def atRest (_ : NodeId) : Prop := False

def Known (e : Env) (s s' : State) (v : NodeId) : Prop :=
  e.IsOuter v ∨ e.tree.IsLocalVar v ∧ ∃ a, s.types.get? v = some a ∧ s'.types.get? v = some a

/-- The view of the bodies of `d`, which are checked from `s₀` on: the blocks around, and which
bindings have been checked in them. -/
structure Inside (e : Env) (d : NodeId) (s₀ s s' : State) : Prop where
  frames : s.frames = s'.frames
  known : ∀ f ∈ s.frames, ∀ p ∈ f, Known e s s' p.2
  checked : ∀ b, e.tree.IsLocal b → e.tree.Below d b → (s.IsChecked b ↔ s'.IsChecked b)
  others : ∀ b, e.tree.IsLocal b → ¬ e.tree.Below d b → (s'.IsChecked b ↔ s₀.IsChecked b)

theorem steady_inside (d : NodeId) (s₀ : State) : Steady e atRest (Inside e d s₀) := by
  intro s s' s₁ s₁' h hs hs'
  refine ⟨hs.frames.trans (h.frames.trans hs'.frames.symm), fun f hf p hp => ?_,
    fun b hb hbelow => ?_, fun b hb hbelow => ?_⟩
  · rw [hs.frames] at hf
    refine (h.known f hf p hp).imp_right fun ⟨hinner, a, ha, ha'⟩ => ⟨hinner, a, ?_, ?_⟩
    · rw [hs.types p.2 (.inr hinner), ha]
    · rw [hs'.types p.2 (.inr hinner), ha']
  · rw [hs.locals b hb, hs'.locals b hb, h.checked b hb hbelow]
  · rw [hs'.locals b hb, h.others b hb hbelow]

theorem mem_of_lookupFrames {x : String} {fs : List Frame} {v : NodeId}
    (h : lookupFrames x fs = some v) : ∃ f ∈ fs, ∃ p ∈ f, p.2 = v := by
  obtain ⟨f, hf, hv⟩ := List.exists_of_findSome?_eq_some h
  obtain ⟨p, hp, rfl⟩ := Option.map_eq_some_iff.mp hv
  exact ⟨f, hf, p, List.mem_of_find?_eq_some hp, rfl⟩

theorem views_inside (d : NodeId) (s₀ : State) : Views e (Inside e d s₀) where
  frames _ _ h := h.frames
  locals s s' h x v hv := by
    obtain ⟨f, hf, p, hp, rfl⟩ := mem_of_lookupFrames hv
    exact h.known f hf p hp

theorem underway_atRest (fuel : Nat) : Underway e fuel atRest := fun _ h => h.elim

section Bodies

variable (he : e.Collected)

include he

theorem stable_inside : Stable e (Matches e (Inside e d s₀) C atRest) :=
  stable_matches he (fun _ h => h.elim) (steady_inside d s₀)

omit he in
theorem frames_inside {g : List Frame → List Frame}
    (hg : ∀ fs, ∀ f ∈ g fs, f ∈ fs ∨ f = []) :
    Tracks (Matches e (Inside e d s₀) C atRest) (modify fun s => { s with frames := g s.frames })
      (modify fun s => { s with frames := g s.frames }) := by
  refine .modify fun s s' h => ⟨⟨congrArg g h.view.frames, fun f hf p hp => ?_, h.view.checked,
    h.view.others⟩, h.clean, h.faithful.withFrames _⟩
  rcases hg _ f hf with hf | rfl
  · exact h.view.known f hf p hp
  · cases hp

theorem bindInner_tracks {v : NodeId} (hv : e.tree.IsLocalVar v) (a : Ty) :
    Tracks (Matches e (Inside e d s₀) C atRest) (bindVar e v a true) (bindVar e v a true) := by
  obtain ⟨x, hx⟩ : ∃ x, (e.tree.kind v).declares = some x := by
    have hvar := hv.1
    cases hk : e.tree.kind v <;> simp_all [Kind.isVar, Kind.declares]
  have hset : bindVar e v a true = modify fun s =>
      { s with frames := bindLocal x.text v s.frames, types := s.types.insert v a } := by
    unfold bindVar
    rw [hx]
    rfl
  rw [hset]
  refine .modify fun s s' h => ⟨⟨congrArg (bindLocal x.text v) h.view.frames, ?_, h.view.checked,
    h.view.others⟩, h.clean, ?_⟩
  · refine forall_mem_bindLocal (.inr ⟨hv, a, by simp⟩) fun f hf p hp => ?_
    rcases h.view.known f hf p hp with houter | ⟨hinner, c, hc, hc'⟩
    · exact .inl houter
    · by_cases heq : v = p.2
      · exact .inr ⟨hinner, a, by simp [heq]⟩
      · exact .inr ⟨hinner, c, by simp [heq, hc, hc']⟩
  · refine (h.faithful.setVar hv.1 fun b hb => ?_).withFrames _
    simp [he.unbound_of_isLocalVar hv] at hb

theorem exprInside_agrees {n : NodeId} (ctx : Context) (hn : (e.tree.kind n).isExpr = true) :
    Tracks (Matches e (Inside e d s₀) C atRest) (afresh e fuel (.expr n ctx))
      (perform e fuel (.expr n ctx)) :=
  expr_agrees he (fun _ h => h.elim) (steady_inside d s₀) (views_inside d s₀)
    (fun k _ => agrees he k atRest (underway_atRest k)) ctx hn

theorem enterInside_agrees {b : NodeId} (hb : e.tree.IsLocal b) (ctx : Context) :
    Tracks (Matches e (Inside e d s₀) C atRest) (enter e (afresh e fuel) b ctx true)
      (enter e (perform e fuel) b ctx true) := by
  refine enter_tracks (stable_inside he) he.tree
    (agrees he fuel atRest (underway_atRest fuel) _ C (steady_inside d s₀))
    (fun c _ hc => exprInside_agrees he ctx hc) fun p i q a hk hq =>
      pattern_agrees (stable_inside he) (fun v a hv hvar => ?_) he.tree a
  have hbinds : e.tree.Binds b v := ⟨p, i, hk, .of_child (Tree.child_of_part hq) hv, hvar⟩
  exact bindInner_tracks he ⟨hvar, b, hb, hbinds.below⟩ a

theorem innerBinding_agrees {b : NodeId} (hb : e.tree.IsLocal b) (hbelow : e.tree.Below d b)
    (ctx : Context) : Tracks (Matches e (Inside e d s₀) C atRest)
      (afresh e fuel (.binding b ctx true)) (perform e fuel (.binding b ctx true)) := by
  cases fuel with
  | zero => exact tracks_zero _ _
  | succ fuel =>
      refine tracks_succ rfl fun s s' h => ?_
      have hiff := h.view.checked b hb hbelow
      by_cases hmarked : s.IsChecked b
      · intro a s₁ ha
        cases ha.symm.trans (step_binding_checked hmarked ctx true)
        exact ⟨s', step_binding_checked (hiff.mp hmarked) ctx true, h⟩
      · have hmarks : Matches e (Inside e d s₀) C atRest (s.mark b) (s'.mark b) := by
          refine ⟨⟨h.view.frames, h.view.known, fun c hc hin => ?_, fun c hc hout => ?_⟩, h.clean,
            h.faithful.mark (.inr hb)⟩
          · exact (isChecked_insert s b c).trans ((or_congr_right (h.view.checked c hc hin)).trans
              (isChecked_insert s' b c).symm)
          · refine (isChecked_insert s' b c).trans ((or_iff_right ?_).trans
              (h.view.others c hc hout))
            rintro rfl
            exact hout hbelow
        intro a s₁ ha
        rw [step_binding_unchecked hmarked] at ha
        rw [step_binding_unchecked (fun h => hmarked (hiff.mpr h))]
        obtain ⟨⟨_, o⟩, ho, heq⟩ := Option.map_eq_some_iff.mp ha
        cases heq
        obtain ⟨s₂, hs₂, hmatches⟩ := enterInside_agrees he hb ctx _ _ hmarks () o ho
        exact ⟨s₂, Option.map_eq_some_iff.mpr ⟨_, hs₂, rfl⟩, hmatches⟩

theorem stmt_agrees {n : NodeId} (ctx : Context) (hn : e.tree.Below d n) :
    Tracks (Matches e (Inside e d s₀) C atRest) (afresh e fuel (.stmt n ctx))
      (perform e fuel (.stmt n ctx)) := by
  induction fuel generalizing n with
  | zero => exact tracks_zero _ _
  | succ fuel ih =>
      refine tracks_succ rfl ((stmt_tracks (stable_inside he) he.tree (frames_inside ?_)
        (frames_inside ?_) (fun c _ hc => exprInside_agrees he ctx hc) (fun c hc => ?_)
          fun b hb => ?_).bind fun _ => .pure _)
      · exact fun fs f hf => (List.mem_cons.mp hf).symm
      · exact fun fs f hf => .inl (List.mem_of_mem_tail hf)
      · exact ih (hn.trans (Tree.below_child (Tree.child_of_part hc)))
      · refine innerBinding_agrees he ⟨n, hb⟩ (hn.trans (Tree.below_child ?_)) ctx
        simp [Tree.children, hb, Kind.children]

end Bodies

section Decls

variable (he : e.Collected)

include he

def Outside (e : Env) (d : NodeId) (s₀ s s' : State) : Prop :=
  Inside e d s₀ s s' ∧ s.frames = []

omit he in
theorem steady_outside (d : NodeId) (s₀ : State) : Steady e atRest (Outside e d s₀) :=
  fun s s' s₁ s₁' h hs hs' =>
    ⟨steady_inside d s₀ s s' s₁ s₁' h.1 hs hs', hs.frames.trans h.2⟩

omit he in
theorem withFrames_eq {α : Type} (fs : List Frame) (m : CheckM α) (s : State) :
    withFrames fs m s = (m { s with frames := fs }).map fun r =>
      (r.1, { r.2 with frames := s.frames }) := by
  rw [withFrames, Option.map_eq_bind]
  rfl

theorem body_agrees {m : NodeId} {ps : List NodeId} (hm : e.tree.Below d m)
    (hps : (e.tree.kind m).parameters? = some ps) {b : NodeId} (hb : b ∈ e.tree.bodies m)
    (ctx : Context) : Tracks (Matches e (Outside e d s₀) C atRest)
      (withFrames [parameterFrame e ps] (afresh e fuel (.stmt b ctx)))
      (withFrames [parameterFrame e ps] (perform e fuel (.stmt b ctx))) := by
  intro s s' h a s₁ ha
  have hentered : Matches e (Inside e d s₀) C atRest
      { s with frames := [parameterFrame e ps] } { s' with frames := [parameterFrame e ps] } := by
    refine ⟨⟨rfl, List.forall_mem_singleton.mpr fun p hp => .inl ?_, h.view.1.checked,
      h.view.1.others⟩, h.clean, h.faithful.withFrames _⟩
    exact .of_isParameter (he.tree.fits m _
      (Kind.part_of_parameters? hps (mem_parameterFrame hp).1))
  rw [withFrames_eq] at ha ⊢
  obtain ⟨⟨_, o⟩, ho, heq⟩ := Option.map_eq_some_iff.mp ha
  cases heq
  obtain ⟨o', ho', hmatches⟩ := stmt_agrees he ctx
    (hm.trans (Tree.isStmt_of_mem_bodies he.tree hb).2) _ _ hentered _ o ho
  refine ⟨_, Option.map_eq_some_iff.mpr ⟨_, ho', rfl⟩, ⟨⟨h.view.1.frames, ?_,
    hmatches.view.checked, hmatches.view.others⟩, h.view.2⟩, hmatches.clean,
    hmatches.faithful.withFrames _⟩
  simp [h.view.2]

omit he in
theorem each_singleton (run : Run) (j : Job) (s : State) :
    each run [j] s = (run j s).map fun r => ((), r.2) := by
  rw [Option.map_eq_bind]
  change ((run j s).bind _).bind _ = _
  rw [Option.bind_assoc]
  rfl

theorem outerBinding_agrees {b : NodeId} (hb : (e.tree.kind b).isBinding = true)
    (hlocal : ¬ e.tree.IsLocal b) : Tracks (Matches e (Outside e d s₀) C atRest)
      (contextOf e (afresh e fuel) b >>= fun ctx => each (afresh e fuel) [.binding b ctx false])
      (contextOf e (perform e fuel) b >>= fun ctx =>
        each (perform e fuel) [.binding b ctx false]) := by
  have hrun := agrees he fuel atRest (underway_atRest fuel) _ C (steady_outside d s₀)
  intro s s' h
  refine (contextIn_tracks hrun b s s' h).bind fun ctx s₁ s₁' h₁ hctx => ?_
  intro a s₂ ha
  rw [each_singleton] at ha ⊢
  obtain ⟨q, hq, heq⟩ := Option.map_eq_some_iff.mp ha
  cases heq
  cases fuel with
  | zero => simp [afresh] at hq
  | succ fuel =>
      rw [afresh_shared rfl] at hq
      obtain ⟨o, ho, rfl⟩ := Option.map_eq_some_iff.mp hq
      obtain ⟨s₃, hc, hclean⟩ := contextOf_blank hctx
      have hframes : s₁'.frames = [] := h₁.view.1.frames.symm.trans h₁.view.2
      obtain ⟨s₂', hs₂', hupholds, hclean', hfaithful, -, -⟩ := binding_meets he hb hlocal
        (underway_atRest _) (fun k _ => agrees he k) (fun h => h) hc
        (worked_succ_iff.mpr ⟨ctx, s₃, o, hc, ho, rfl⟩) h₁.faithful hframes
        fun h => (hclean.mp (h₁.clean.mp h).2).2
      refine ⟨s₂', Option.map_eq_some_iff.mpr ⟨_, hs₂', rfl⟩, ⟨⟨?_, fun f hf => ?_,
        fun c hlocal hin => ?_, fun c hlocal hout => ?_⟩, h₁.view.2⟩, ?_, hfaithful⟩
      · exact h₁.view.1.frames.trans hupholds.frames.symm
      · have hnone : f ∈ s₁.frames := hf
        simp [h₁.view.2] at hnone
      · exact (h₁.view.1.checked c hlocal hin).trans (hupholds.locals c hlocal).symm
      · exact (hupholds.locals c hlocal).trans (h₁.view.1.others c hlocal hout)
      · rw [hclean', clean_absorb, clean_absorb, h₁.clean, hclean]
        tauto

theorem decl_agrees {m : NodeId} (hm : e.tree.Below d m) (hmember : e.tree.IsMember m) :
    Tracks (Matches e (Outside e d s₀) C atRest) (afresh e fuel (.decl m))
      (perform e fuel (.decl m)) := by
  induction fuel generalizing m with
  | zero => exact tracks_zero _ _
  | succ fuel ih =>
      have hrun := agrees he fuel atRest (underway_atRest fuel) _ C (steady_outside d s₀)
      refine tracks_succ rfl ((decl_tracks (stable_matches he (fun _ h => h.elim)
        (steady_outside d s₀)) he.tree hrun (fun c hc => ?_) (fun ps hps b hb ctx => ?_)
          fun hb => ?_).bind fun _ => .pure _)
      · exact ih (hm.trans (Tree.below_child (Tree.child_of_part hc))) ⟨m, hc⟩
      · exact body_agrees he hm hps hb ctx
      · exact outerBinding_agrees he hb (not_isLocal_of_isMember he.tree hmember)

end Decls

def Env.Accepts (e : Env) (d : NodeId) : Prop :=
  ∃ fuel r, afresh e fuel (.decl d) .blank = some r ∧ r.2.Clean

theorem accepts_iff {r : Ty × State} (h : afresh e fuel (.decl d) .blank = some r) :
    e.Accepts d ↔ r.2.Clean := by
  refine ⟨fun ⟨k, q, hq, hclean⟩ => ?_, fun hclean => ⟨fuel, r, h, hclean⟩⟩
  rwa [eq_of_mono (f := fun k => afresh e k (.decl d) .blank)
    (fun hle h => afresh_refines hle _ _ _ h) h hq]

theorem faithful_initial (e : Env) (ds : DiagnosticSet) : Faithful e atRest (.initial ds) := by
  constructor <;> simp [State.initial, State.IsChecked, Table.contains]

theorem checkDecls_agrees (he : e.Collected) {ds : List NodeId}
    (hapart : ds.Pairwise fun d d' => ∀ x, ¬ (e.tree.Below d x ∧ e.tree.Below d' x))
    (hmember : ∀ d ∈ ds, e.tree.IsMember d)
    (hends : ∀ d ∈ ds, (afresh e fuel (.decl d) .blank).isSome = true)
    (hs : Faithful e atRest s) (hframes : s.frames = [])
    (huntouched : ∀ d ∈ ds, s.Untouched e.tree d) :
    ∃ s', checkDecls e fuel ds s = some ((), s') ∧
      (s'.Clean ↔ s.Clean ∧ ∀ d ∈ ds, e.Accepts d) := by
  induction ds generalizing s with
  | nil => exact ⟨s, rfl, by simp⟩
  | cons d ds ih =>
      rw [List.pairwise_cons] at hapart
      simp only [List.forall_mem_cons] at hmember hends huntouched
      obtain ⟨⟨a, o⟩, ho⟩ := Option.isSome_iff_exists.mp hends.1
      have hblank : Outside e d s .blank s := by
        refine ⟨⟨hframes.symm, fun f hf => (List.not_mem_nil hf).elim, fun b hb hbelow => ?_,
          fun _ _ _ => .rfl⟩, rfl⟩
        refine iff_of_false ?_ (huntouched.1 b hb hbelow)
        simp [State.blank, State.initial, State.IsChecked, Table.contains]
      obtain ⟨s₁, hs₁, h₁⟩ := decl_agrees (C := s.Clean) he (.refl d) hmember.1 .blank s
        ⟨hblank, (and_iff_left clean_blank).symm, hs⟩ a o ho
      obtain ⟨s₂, hs₂, hclean⟩ := ih hapart.2 hmember.2 hends.2 h₁.faithful
        (h₁.view.1.frames.symm.trans h₁.view.2) fun c hc b hb hbelow => by
          rw [h₁.view.1.others b hb fun h => hapart.1 c hc b ⟨h, hbelow⟩]
          exact huntouched.2 c hc b hb hbelow
      refine ⟨s₂, Option.bind_eq_some_iff.mpr ⟨_, hs₁, hs₂⟩, ?_⟩
      rw [hclean, h₁.clean, List.forall_mem_cons, accepts_iff ho, and_assoc]

/-- No declaration of a program needs itself, so that it can be checked with all that it needs
worked out afresh. -/
def Founded (t : Tree) : Prop :=
  ∃ fuel, ∀ d ∈ ownDecls t, (afresh ⟨t, .ofTree t⟩ fuel (.decl d) .blank).isSome = true

section Programs

variable {t : Tree} (h : t.Parsed) (hfounded : Founded t)

include h hfounded

theorem clean_iff_accepts {ds : List NodeId} (hds : ds.Perm (ownDecls t)) :
    ∃ s, checkDecls ⟨t, .ofTree t⟩ (fuelFor t) ds
        (.initial ((Declarations.ofTree t).duplicates t)) = some ((), s) ∧
      (s.Clean ↔ ((Declarations.ofTree t).duplicates t).containsError = false ∧
        ∀ d ∈ ownDecls t, Env.Accepts ⟨t, .ofTree t⟩ d) := by
  have ht := h.wellFormed
  obtain ⟨fuel, hends⟩ := hfounded
  obtain ⟨_, s, hs, -⟩ := checkDecls_lexical h hds
  have hmember (d : NodeId) (hd : d ∈ ds) : t.IsMember d := by
    obtain ⟨u, -, -, hpart⟩ := mem_ownDecls (hds.mem_iff.mp hd)
    exact ⟨u, hpart⟩
  have huntouched (d : NodeId) (_ : d ∈ ds) :
      (State.initial ((Declarations.ofTree t).duplicates t)).Untouched t d := by
    simp [State.Untouched, State.initial, State.IsChecked, Table.contains]
  obtain ⟨s', hs', hclean⟩ := checkDecls_agrees (collected_ofTree h)
    ((hds.pairwise_iff fun hab x hx => hab x hx.symm).mpr (ownDecls_pairwise ht)) hmember
    (fun d hd => hends d (hds.mem_iff.mp hd)) (faithful_initial _ _) rfl huntouched
  have heq : s = s' := by
    have hmax := checkDecls_refines (Nat.le_max_left (fuelFor t) fuel) ds _ _ hs
    cases hmax.symm.trans (checkDecls_refines (Nat.le_max_right (fuelFor t) fuel) ds _ _ hs')
    rfl
  subst heq
  refine ⟨s, hs, hclean.trans (and_congr_right fun _ => ?_)⟩
  exact forall_congr' fun d => by rw [hds.mem_iff]

/-- If no declaration needs itself, then it does not matter in which order they are checked. -/
theorem accepted_in_any_order {ds : List NodeId} (hds : ds.Perm (ownDecls t)) :
    ∃ s, checkDecls ⟨t, .ofTree t⟩ (fuelFor t) ds
        (.initial ((Declarations.ofTree t).duplicates t)) = some ((), s) ∧
      (s.Clean ↔ ∃ p, typeCheck t = .ok p) := by
  obtain ⟨s, hs, hclean⟩ := clean_iff_accepts h hfounded hds
  obtain ⟨s', hs', hclean'⟩ := clean_iff_accepts h hfounded (.refl (ownDecls t))
  have hfinal : final t (fuelFor t) = some s' := Option.map_eq_some_iff.mpr ⟨_, hs', rfl⟩
  refine ⟨s, hs, (hclean.trans hclean'.symm).trans ?_⟩
  rw [typeCheck, hfinal]
  change s'.diagnostics.containsError = false ↔ _
  by_cases herror : s'.diagnostics.containsError = true <;> simp [herror]

end Programs

def forwardDocument : File :=
  .document "file:///main.orca" "
    let total: Int = size + 1
    fun area() -> Int \x7b
      let w = total
      return w * size
    \x7d
    let size = Cell(2).width
    type Cell \x7b var width: Int \x7d"

set_option maxRecDepth 4000 in
theorem forwardDocument_in_any_order :
    ∃ t s, Tree.parseModule .empty "main" [forwardDocument] = .ok t ∧ (ownDecls t).length = 4 ∧
      checkDecls ⟨t, .ofTree t⟩ (fuelFor t) (ownDecls t).reverse
        (.initial ((Declarations.ofTree t).duplicates t)) = some ((), s) ∧ s.Clean := by
  have hrun : ((Tree.parseModule .empty "main" [forwardDocument]).toOption.any fun t =>
      (ownDecls t).length == 4 && (typeCheck t).isOk &&
        (ownDecls t).all fun d => (afresh ⟨t, .ofTree t⟩ 20 (.decl d) .blank).isSome) = true := by
    rw [Tree.parseModule, Tree.parseUnits, Tree.parseUnit,
      Layout.ofFile_of_text forwardDocument rfl]
    decide +kernel
  cases hparse : Tree.parseModule .empty "main" [forwardDocument] with
  | error e =>
      rw [hparse] at hrun
      simp [Except.toOption] at hrun
  | ok t =>
      rw [hparse] at hrun
      simp only [Except.toOption, Option.any_some, Bool.and_eq_true, beq_iff_eq,
        List.all_eq_true] at hrun
      obtain ⟨⟨hlength, hok⟩, hends⟩ := hrun
      obtain ⟨p, hp⟩ : ∃ p, typeCheck t = .ok p := by
        cases hcheck : typeCheck t with
        | error ds => simp [hcheck, Except.isOk, Except.toBool] at hok
        | ok p => exact ⟨p, rfl⟩
      obtain ⟨s, hs, hclean⟩ := accepted_in_any_order (.module .empty hparse) ⟨20, hends⟩
        (List.reverse_perm (ownDecls t))
      exact ⟨t, s, rfl, hlength, hs, hclean.mpr ⟨p, hp⟩⟩

end LanguageService.Check
