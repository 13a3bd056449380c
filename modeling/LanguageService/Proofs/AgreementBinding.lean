import LanguageService.Proofs.Agreement

/-!
Expressions, patterns and bindings come to the same whether what has been worked out is remembered
or not, and with them variables, so that all jobs that find types do.
-/
namespace LanguageService.Check

variable {e : Env} {V : State → State → Prop} {C : Prop} {U : NodeId → Prop} {s : State}
  {fuel : Nat} {R : State → State → Prop}

structure Views (e : Env) (V : State → State → Prop) : Prop where
  frames : ∀ s s', V s s' → s.frames = s'.frames
  locals : ∀ s s', V s s' → ∀ x d, lookupFrames x s.frames = some d → e.IsOuter d ∨
    e.tree.IsLocalVar d ∧ ∃ a, s.types.get? d = some a ∧ s'.types.get? d = some a

theorem tracks_zero (j : Job) (m : CheckM Ty) : Tracks R (afresh e 0 j) m :=
  fun _ _ _ _ _ ha => by simp [afresh] at ha

theorem tracks_succ {j : Job} (hj : j.isShared e = false)
    (h : Tracks R (step e (afresh e fuel) j) (step e (perform e fuel) j)) :
    Tracks R (afresh e (fuel + 1) j) (perform e (fuel + 1) j) := by
  intro s s' hs a s₁ ha
  rw [afresh_other hj] at ha
  exact h s s' hs a s₁ ha

theorem pattern_agrees (hR : Stable e R) {p : NodeId} {inBody : Bool}
    (hvar : ∀ v a, e.tree.Below p v → (e.tree.kind v).isVar = true →
      Tracks R (bindVar e v a inBody) (bindVar e v a inBody)) (ht : e.tree.WellFormed) (a : Ty) :
    Tracks R (afresh e fuel (.pattern p a inBody)) (perform e fuel (.pattern p a inBody)) := by
  induction fuel generalizing p a with
  | zero => exact tracks_zero _ _
  | succ fuel ih =>
      refine tracks_succ rfl ((pattern_tracks hR a (fun v a hv => ?_) fun q a hq => ?_).bind
        fun _ => .pure _)
      · exact hvar v a (Tree.below_child (Tree.child_of_part hv)) (ht.fits p _ hv)
      · exact ih (fun v a hv => hvar v a (.of_child (Tree.child_of_part hq) hv)) a

section Exprs

variable (he : e.Collected) (hU : ∀ d, U d → (e.tree.kind d).isDeclaration = true)
  (hsteady : Steady e U V) (hviews : Views e V)

include he hU hsteady hviews

theorem expr_agrees (hagree : ∀ k < fuel, Agrees e k U) {n : NodeId} (ctx : Context)
    (hn : (e.tree.kind n).isExpr = true) :
    Tracks (Matches e V C U) (afresh e fuel (.expr n ctx)) (perform e fuel (.expr n ctx)) := by
  induction fuel generalizing n with
  | zero => exact tracks_zero _ _
  | succ fuel ih =>
      have hrun := hagree fuel (Nat.lt_succ_self fuel) V C hsteady
      refine tracks_succ rfl (expr_tracks (stable_matches he hU hsteady) he.sane he.toOutward hrun
        he.tree he.letters ⟨fun s s' hs => hviews.frames s s' hs.view, ?_⟩
        (fun c _ hc => ih (fun k hk => hagree k (Nat.lt_succ_of_lt hk)) hc) hn)
      intro s s' hs x d hd
      rcases hviews.locals s s' hs.view x d hd with houter | ⟨hinner, a, ha, ha'⟩
      · exact hrun (.signature d) houter s s' hs
      · intro b s₁ hb
        cases fuel with
        | zero => simp [afresh] at hb
        | succ fuel =>
            have hshared : Job.isShared e (.signature d) = false := by
              simp [Job.isShared, hinner.1, he.unbound_of_isLocalVar hinner]
            rw [afresh_other hshared] at hb
            cases hb.symm.trans (signature_typed ha)
            exact ⟨s', signature_typed ha', hs⟩

end Exprs

section Bindings

def entering (e : Env) (U : NodeId → Prop) (b d : NodeId) : Prop :=
  d = b ∨ e.decls.bindings.get? d = some b ∨ U d

structure Enters (e : Env) (U : NodeId → Prop) (b : NodeId) (s₀ s s' : State) : Prop where
  upholds : Upholds e (fun d => U d ∧ ¬ e.tree.Binds b d) s₀ s'
  frames : s.frames = []
  types : ∀ v, e.decls.bindings.get? v = some b → s.types.get? v = s'.types.get? v

theorem steady_enters (b : NodeId) (s₀ : State) :
    Steady e (entering e U b) (Enters e U b s₀) := by
  intro s s' s₁ s₁' h hs hs'
  refine ⟨h.upholds.trans (hs'.mono fun d hd => .inr (.inr hd.1)), hs.frames.trans h.frames,
    fun v hv => ?_⟩
  have hunderway : entering e U b v ∨ e.tree.IsLocalVar v := .inl (.inr (.inl hv))
  rw [hs.types v hunderway, hs'.types v hunderway, h.types v hv]

theorem views_enters {b : NodeId} {s₀ : State} (hs₀ : s₀.frames = []) :
    Views e (Enters e U b s₀) where
  frames s s' h := by rw [h.frames, h.upholds.frames, hs₀]
  locals s s' h x d hd := by simp [h.frames, lookupFrames] at hd

variable (he : e.Collected) {b : NodeId} (hb : (e.tree.kind b).isBinding = true)
  (hlocal : ¬ e.tree.IsLocal b)

include he hb

theorem underway_entering (hU : Underway e fuel U) (hleast : ∀ k < fuel, own e k b = none) :
    Underway e fuel (entering e U b) := by
  rintro d (rfl | hd | hd)
  · refine ⟨?_, hleast⟩
    cases hk : e.tree.kind d <;> simp_all [Kind.isBinding, Kind.isDeclaration]
  · have hvar := he.isVar hd
    refine ⟨Kind.isDeclaration_of_isVar hvar, fun k hk => ?_⟩
    by_contra hsome
    obtain ⟨r, hr⟩ := Option.ne_none_iff_exists'.mp hsome
    obtain ⟨q, hq, -⟩ := own_var hvar hd hr
    have hnone := hleast k hk
    rw [own_binding hb, hq] at hnone
    cases hnone
  · exact hU d hd

include hlocal

theorem bindVar_agrees {s₀ : State} (hmarked : s₀.IsChecked b) {v : NodeId} (a : Ty)
    (hv : e.tree.Binds b v) : Tracks (Matches e (Enters e U b s₀) C (entering e U b))
      (bindVar e v a false) (bindVar e v a false) := by
  have hvar : (e.tree.kind v).isVar = true := by
    obtain ⟨-, -, -, -, hvar⟩ := hv
    exact hvar
  have hother {n : NodeId} (hn : (U n ∧ ¬ e.tree.Binds b n) ∨ e.tree.IsLocalVar n) : v ≠ n := by
    rintro rfl
    rcases hn with ⟨-, hn⟩ | ⟨-, c, hc, hbelow⟩
    · exact hn hv
    · have heq := Tree.binding_unique he.tree (isBinding_of_isLocal he.tree hc) hb hbelow hv.below
      exact hlocal (heq ▸ hc)
  change Tracks _ (modify fun s => { s with types := s.types.insert v a })
    (modify fun s => { s with types := s.types.insert v a })
  refine .modify fun s s' h => ⟨⟨⟨h.view.upholds.frames, h.view.upholds.inProgress, fun n hn => ?_,
    h.view.upholds.locals, h.view.upholds.marked⟩, h.view.frames, fun w hw => ?_⟩, h.clean,
    h.faithful.setVar hvar fun c hc => ?_⟩
  · rw [Table.get?_insert, if_neg (hother hn)]
    exact h.view.upholds.types n hn
  · rw [Table.get?_insert, Table.get?_insert]
    split
    · rfl
    · exact h.view.types w hw
  · have heq := Tree.binding_unique he.tree (he.sane.bindings v c hc) hb
      (he.binds v c hc).1.below hv.below
    exact ⟨.inl heq, heq ▸ h.view.upholds.marked b hmarked⟩

theorem enter_agrees (hU : Underway e fuel U) (hleast : ∀ k < fuel, own e k b = none)
    (hagree : ∀ k ≤ fuel, ∀ U, Underway e k U → Agrees e k U) {s₀ : State}
    (hframes : s₀.frames = [])
    (hmarked : s₀.IsChecked b) (ctx : Context) :
    Tracks (Matches e (Enters e U b s₀) C (entering e U b))
      (enter e (afresh e fuel) b ctx false) (enter e (perform e fuel) b ctx false) := by
  have hentering := underway_entering he hb hU hleast
  have hdecl : ∀ d, entering e U b d → (e.tree.kind d).isDeclaration = true :=
    fun d hd => (hentering d hd).1
  have hsteady := steady_enters (e := e) (U := U) b s₀
  have hstable := stable_matches (C := C) he hdecl hsteady
  refine enter_tracks hstable he.tree (hagree fuel (Nat.le_refl _) _ hentering _ C hsteady)
    (fun c _ hc => ?_) fun p i q a hk hq => ?_
  · exact expr_agrees he hdecl hsteady (views_enters hframes)
      (fun k hk => hagree k (Nat.le_of_lt hk) _ (hentering.mono (Nat.le_of_lt hk))) ctx hc
  · exact pattern_agrees hstable (fun v a hv hvar => bindVar_agrees he hb hlocal hmarked a
      ⟨p, i, hk, .of_child (Tree.child_of_part hq) hv, hvar⟩) he.tree a

omit hlocal in
theorem Faithful.leave (h : Faithful e (entering e U b) s)
    (hidle : ∀ d, s.inProgress.contains d = true → U d)
    (hchecked : ∀ fuel r, worked e fuel b = some r → (s.Clean → r.2.Clean) ∧
      ∀ v, e.decls.bindings.get? v = some b →
        (s.types.get? v).getD .error = (r.2.types.get? v).getD .error) :
    Faithful e U s := by
  have hout {d : NodeId} (hd : ¬ U d) (hne : d ≠ b) (hvar : (e.tree.kind d).isVar = false) :
      ¬ entering e U b d := by
    rintro (heq | hbound | hU)
    · exact hne heq
    · simp [he.isVar hbound] at hvar
    · exact hd hU
  refine ⟨hidle, fun d a hd hdecl hvar hbinding => ?_, h.subjects, h.guarded,
    fun c hc hbinding hlocal hmarked => ?_⟩
  · refine h.typed d a (hout hd ?_ hvar) hdecl hvar hbinding
    rintro rfl
    simp [hb] at hbinding
  · by_cases hne : c = b
    · subst hne
      exact hchecked
    · refine h.checked c (hout hc hne ?_) hbinding hlocal hmarked
      cases hk : e.tree.kind c <;> simp_all [Kind.isBinding, Kind.isVar]

theorem binding_meets (hU : Underway e fuel U)
    (hagree : ∀ k < fuel, ∀ U, Underway e k U → Agrees e k U) (hbU : ¬ U b) {c : Context}
    {s₀ : State} {r : Ty × State} (hc : contextOf e (afresh e fuel) b .blank = some (c, s₀))
    (hr : worked e fuel b = some r) (hs : Faithful e U s) (hframes : s.frames = [])
    (hclean : s.Clean → s₀.Clean) :
    ∃ s', perform e fuel (.binding b c false) s = some (r.1, s') ∧
      Upholds e (fun d => U d ∧ ¬ e.tree.Binds b d) s s' ∧ (s'.Clean ↔ s.Clean ∧ r.2.Clean) ∧
        Faithful e U s' ∧ s'.IsChecked b ∧ ∀ v, e.decls.bindings.get? v = some b →
          (s'.types.get? v).getD .error = (r.2.types.get? v).getD .error := by
  obtain ⟨k, hk, hown, hleast⟩ := exists_least (d := b) (by rwa [own_binding hb])
  rw [own_binding hb] at hown
  cases k with
  | zero => simp [worked_zero] at hown
  | succ k =>
      obtain ⟨c', s₀', q, hc', hq, rfl⟩ := worked_succ_iff.mp hown
      obtain ⟨rfl, rfl⟩ := contextOf_unique hc hc'
      have hblank : ¬ State.blank.IsChecked b := by
        simp [State.blank, State.initial, State.IsChecked, Table.contains]
      rw [apart, step_binding_unchecked hblank] at hq
      obtain ⟨⟨_, o⟩, ho, rfl⟩ := Option.map_eq_some_iff.mp hq
      by_cases hmarked : s.IsChecked b
      · obtain ⟨hclean', htypes⟩ := hs.checked b hbU hb hlocal hmarked fuel _ hr
        exact ⟨s, perform_refines hk _ _ _ (step_binding_checked hmarked c false), .refl s,
          (and_iff_left_of_imp hclean').symm, hs, hmarked, htypes⟩
      · have hframes' : (s.mark b).frames = [] := hframes
        have hmarks : (s.mark b).IsChecked b := (isChecked_insert s b b).mpr (.inl rfl)
        have hview : Enters e U b (s.mark b) (State.blank.mark b) (s.mark b) := by
          refine ⟨.refl _, rfl, fun v hv => ?_⟩
          by_contra hne
          exact hmarked (hs.guarded v b hv (Ne.symm hne))
        obtain ⟨s₁, hs₁, hmatches⟩ := enter_agrees he hb hlocal (C := s.Clean)
          (hU.mono (Nat.le_of_succ_le hk)) (fun i hi => hleast i (Nat.lt_succ_of_lt hi))
          (fun i hi => hagree i (Nat.lt_of_le_of_lt hi hk)) hframes' hmarks c (State.blank.mark b)
          (s.mark b) ⟨hview, (and_iff_left clean_blank).symm,
            (hs.mono fun _ hd => .inr (.inr hd)).mark (.inl (.inl rfl))⟩ () o ho
        have hupholds := (Upholds.mark s hlocal).trans hmatches.view.upholds
        have hclean₁ : s₁.Clean ↔ s.Clean ∧ (s₀.absorb (.binding b c false) o).Clean := by
          rw [hmatches.clean, clean_absorb]
          exact and_congr_right fun h => (and_iff_right (hclean h)).symm
        have htypes : ∀ v, e.decls.bindings.get? v = some b →
            (s₁.types.get? v).getD .error = (o.types.get? v).getD .error := fun v hv => by
          rw [hmatches.view.types v hv]
        refine ⟨s₁, perform_refines hk (.binding b c false) s (.void, s₁) ?_, hupholds, hclean₁,
          hmatches.faithful.leave he hb ?_ fun i r hr' => ?_,
          hmatches.view.upholds.marked b hmarks, htypes⟩
        · exact (step_binding_unchecked hmarked c false).trans
            (Option.map_eq_some_iff.mpr ⟨_, hs₁, rfl⟩)
        · exact fun d hd => hs.idle d (by rwa [hupholds.inProgress] at hd)
        · rw [worked_unique hr' hr]
          exact ⟨fun h => (hclean₁.mp h).2, htypes⟩

end Bindings

section Variables

variable (he : e.Collected) {v b : NodeId} (hbound : e.decls.bindings.get? v = some b) (hbU : ¬ U b)
  {q : Ty × State} (hq : worked e fuel b = some q) (hs : Faithful e U s)

include he hbound hbU hq hs

theorem varType_meets (hU : Underway e (fuel + 1) U)
    (hagree : ∀ k ≤ fuel, ∀ U, Underway e k U → Agrees e k U)
    (hleast : ∀ k < fuel, own e k v = none) :
    ∃ s₁, varType e (perform e fuel) v (s.begin v) =
        some ((q.2.types.get? v).getD .error, s₁) ∧ Upholds e U (s.begin v) s₁ ∧
      (s₁.Clean ↔ s.Clean ∧ q.2.Clean) ∧ Faithful e (fun d => d = v ∨ U d) s₁ ∧ s₁.IsChecked b ∧
        (s₁.types.get? v).getD .error = (q.2.types.get? v).getD .error := by
  obtain ⟨hbinds, hlocal⟩ := he.binds v b hbound
  have hb := he.sane.bindings v b hbound
  have hvar := he.isVar hbound
  have hunderway : Underway e fuel fun d => d = v ∨ U d :=
    (hU.mono (Nat.le_succ fuel)).begin (Kind.isDeclaration_of_isVar hvar) hleast
  have hbU' : ¬ (b = v ∨ U b) := by
    rintro (rfl | h)
    · cases hk : e.tree.kind b <;> simp_all [Kind.isVar, Kind.isBinding]
    · exact hbU h
  cases fuel with
  | zero => simp [worked_zero] at hq
  | succ fuel =>
      obtain ⟨c, s₀, p, hc, hp, rfl⟩ := worked_succ_iff.mp hq
      have hview : Steady e (fun d => d = v ∨ U d)
          fun _ s' => Upholds e (fun d => d = v ∨ U d) (s.begin v) s' :=
        fun _ _ _ _ h _ h' => h.trans h'
      obtain ⟨s₁, hs₁, hmatches⟩ := contextIn_tracks
        (hagree _ (Nat.le_refl _) _ hunderway _ s.Clean hview) b .blank (s.begin v)
        ⟨.refl _, (and_iff_left clean_blank).symm, hs.begin v⟩ c s₀ hc
      obtain ⟨s₂, hs₂, hupholds, hclean, hfaithful, hmarked, htypes⟩ := binding_meets he hb hlocal
        hunderway (fun k hk => hagree k (Nat.le_of_lt hk)) hbU' hc hq
        (hmatches.faithful.withFrames []) rfl fun h => (hmatches.clean.mp h).2
      refine ⟨{ s₂ with frames := s₁.frames }, ?_, ?_, ?_, hfaithful.withFrames _, hmarked,
        htypes v hbound⟩
      · rw [varType_bound hbound, hs₁, Option.bind_some, hs₂, Option.map_some, htypes v hbound]
      · refine (hmatches.view.mono fun _ => .inr).trans ⟨rfl, hupholds.inProgress, fun d hd => ?_,
          hupholds.locals, hupholds.marked⟩
        refine hupholds.types d (hd.imp_left fun hd => ⟨.inr hd, fun hbinds => ?_⟩)
        -- The binding can be worked out, and so could `d`.
        obtain ⟨-, -, -, -, hdvar⟩ := id hbinds
        refine own_var_of_worked (b := b) hdvar (fun c hc => ?_) (by simp [hq])
          ((hU d hd).2 (fuel + 1) (Nat.lt_succ_self _))
        exact Tree.binding_unique he.tree (he.sane.bindings d c hc) hb
          (he.binds d c hc).1.below hbinds.below
      · change s₂.Clean ↔ _
        rw [hclean]
        change s₁.Clean ∧ _ ↔ _
        rw [hmatches.clean, clean_absorb]
        tauto

theorem var_meets (hU : Underway e (fuel + 1) U) (hv : ¬ U v)
    (hagree : ∀ k ≤ fuel, ∀ U, Underway e k U → Agrees e k U)
    (hleast : ∀ k < fuel, own e k v = none) {r : Ty × State} (hr : own e fuel v = some r) :
    Meets e U (signature e (perform e fuel) v) s r := by
  obtain ⟨-, hlocal⟩ := he.binds v b hbound
  have hb := he.sane.bindings v b hbound
  have hvar := he.isVar hbound
  obtain ⟨q', hq', hval, hclean⟩ := own_var hvar hbound hr
  obtain rfl := worked_unique hq' hq
  cases hknown : s.types.get? v with
  | some a =>
      have hmarked := hs.guarded v b hbound (by simp [hknown])
      obtain ⟨hclean', htypes⟩ := hs.checked b hbU hb hlocal hmarked fuel q' hq
      refine .remembered hs (signature_typed hknown) ⟨?_, hclean.mpr ∘ hclean'⟩
      rw [hval, ← htypes v hbound, hknown, Option.getD_some]
  | none =>
      have hidle : s.inProgress.contains v = false :=
        Bool.eq_false_iff.mpr fun h => hv (hs.idle v h)
      have hinner : ¬ e.tree.IsLocalVar v := fun h => by
        simp [he.unbound_of_isLocalVar h] at hbound
      have hsingle : (e.tree.kind v).isBinding = false := by
        cases hk : e.tree.kind v <;> simp_all [Kind.isVar, Kind.isBinding]
      obtain ⟨s₁, hs₁, hupholds, hclean₁, hfaithful, hmarked, htype⟩ :=
        varType_meets he hbound hbU hq hs hU hagree hleast
      refine ⟨s₁.settle v r.1, ?_, hupholds.settle hv hinner hidle, ?_,
        hfaithful.settle hv hsingle (by simp [hvar]) fun c hc => ?_⟩
      · rw [signature_begin hknown hidle, declaredType_var hvar, hs₁, hval]
        rfl
      · rw [hclean]
        exact hclean₁
      · obtain rfl := Option.some.inj (hbound.symm.trans hc)
        exact ⟨hmarked, htype.trans hval.symm⟩

end Variables

theorem agrees (he : e.Collected) : ∀ fuel U, Underway e fuel U → Agrees e fuel U := by
  intro fuel
  induction fuel using Nat.strongRecOn with
  | ind fuel ih =>
      intro U hU V C hsteady j hj
      cases fuel with
      | zero => exact tracks_zero _ _
      | succ fuel =>
          have hagree : ∀ k ≤ fuel, ∀ U, Underway e k U → Agrees e k U :=
            fun k hk => ih k (Nat.lt_succ_of_le hk)
          have hmono {k : Nat} (hk : k ≤ fuel) (j : Job) :
              Refines (step e (perform e k) j) (step e (perform e fuel) j) :=
            step_refines (fun j => perform_refines hk j) j
          have hunderway {d : NodeId} {r : Ty × State} (hr : own e fuel d = some r) : ¬ U d := by
            intro hd
            simp [(hU d hd).2 fuel (Nat.lt_succ_self fuel)] at hr
          cases j with
          | typeExpr n ctx =>
              exact tracks_succ rfl (typeExpr_tracks he.tree (stable_matches he (fun d hd =>
                (hU d hd).1) hsteady) (hagree fuel (Nat.le_refl _) U (hU.mono (Nat.le_succ _)) V C
                  hsteady) ctx hj)
          | subject ext =>
              exact tracks_of_meets rfl (by simp) hsteady fun r s hr hs =>
                subject_meets he (hagree fuel (Nat.le_refl _) U (hU.mono (Nat.le_succ _))) hs hr
          | typeAlias d =>
              refine tracks_of_meets rfl (by simp) hsteady fun r s hr hs => ?_
              rw [← own_typeAlias hj] at hr
              obtain ⟨k, hk, hown, hleast⟩ := exists_least hr
              have halias : (e.tree.kind d).isTypeAlias = true := hj
              have hdecl : (e.tree.kind d).isDeclaration = true := by
                cases hk : e.tree.kind d <;> simp_all [Kind.isTypeAlias, Kind.isDeclaration]
              exact (typeAlias_meets he (hunderway hr) hj (hagree k hk _
                ((hU.mono (Nat.le_succ_of_le hk)).begin hdecl hleast)) hs hown).refines
                  (hmono hk (.typeAlias d))
          | signature d =>
              have hshared : Job.isShared e (.signature d) = true := by
                cases hvar : (e.tree.kind d).isVar <;>
                  simp [Job.isShared, hvar, Option.isSome_iff_ne_none, hj.bound]
              refine tracks_of_meets hshared (by simp) hsteady fun r s hr hs => ?_
              rw [← own_signature hj] at hr
              obtain ⟨k, hk, hown, hleast⟩ := exists_least hr
              refine Meets.refines ?_ (hmono hk (.signature d))
              cases hvar : (e.tree.kind d).isVar with
              | false =>
                  exact signature_meets he (hunderway hr) hj hvar (hagree k hk _
                    ((hU.mono (Nat.le_succ_of_le hk)).begin
                      (Kind.isDeclaration_of_hasSignature hj.signature) hleast)) hs hown
              | true =>
                  obtain ⟨b, hbound⟩ := Option.ne_none_iff_exists'.mp (hj.bound hvar)
                  obtain ⟨q, hq, -⟩ := own_var hvar hbound hown
                  have hb : own e k b = some q := by
                    rwa [own_binding (he.sane.bindings d b hbound)]
                  exact var_meets he hbound (hunderway (own_mono hk hb)) hq hs
                    (hU.mono (Nat.succ_le_succ hk)) (hunderway hr)
                    (fun i hi => hagree i (Nat.le_trans hi hk)) hleast hown
          | _ => exact hj.elim

end LanguageService.Check
