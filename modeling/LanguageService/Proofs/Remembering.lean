import LanguageService.Proofs.Afresh

namespace LanguageService

def Tree.IsLocalVar (t : Tree) (v : NodeId) : Prop :=
  (t.kind v).isVar = true ∧ ∃ b, t.IsLocal b ∧ t.Below b v

namespace Check

variable {e : Env} {U U' : NodeId → Prop} {s s₁ s' : State} {d b v : NodeId} {a : Ty}

structure Upholds (e : Env) (U : NodeId → Prop) (s s' : State) : Prop where
  frames : s'.frames = s.frames
  inProgress : ∀ d, s'.inProgress.contains d = s.inProgress.contains d
  types : ∀ d, U d ∨ e.tree.IsLocalVar d → s'.types.get? d = s.types.get? d
  locals : ∀ b, e.tree.IsLocal b → (s'.IsChecked b ↔ s.IsChecked b)
  marked : ∀ b, s.IsChecked b → s'.IsChecked b

theorem Upholds.refl (s : State) : Upholds e U s s :=
  ⟨rfl, fun _ => rfl, fun _ _ => rfl, fun _ _ => .rfl, fun _ => id⟩

theorem Upholds.trans (h : Upholds e U s s₁) (h' : Upholds e U s₁ s') : Upholds e U s s' where
  frames := h'.frames.trans h.frames
  inProgress := fun d => (h'.inProgress d).trans (h.inProgress d)
  types := fun d hd => (h'.types d hd).trans (h.types d hd)
  locals := fun b hb => (h'.locals b hb).trans (h.locals b hb)
  marked := fun b hb => h'.marked b (h.marked b hb)

theorem Upholds.mono (hle : ∀ d, U d → U' d) (h : Upholds e U' s s') : Upholds e U s s' :=
  ⟨h.frames, h.inProgress, fun d hd => h.types d (hd.imp_left (hle d)), h.locals, h.marked⟩

def State.Repeats (s : State) (a : Ty) (results : Nat → Option (Ty × State)) : Prop :=
  ∀ fuel r, results fuel = some r → r.1 = a ∧ (s.Clean → r.2.Clean)

structure Faithful (e : Env) (U : NodeId → Prop) (s : State) : Prop where
  idle : ∀ d, s.inProgress.contains d = true → U d
  typed : ∀ d a, ¬ U d → (e.tree.kind d).isDeclaration = true → (e.tree.kind d).isVar = false →
    (e.tree.kind d).isBinding = false → s.types.get? d = some a →
      s.Repeats a fun fuel => own e fuel d
  subjects : ∀ ext a, s.subjects.get? ext = some a →
    s.Repeats a fun fuel => apart e fuel (.subject ext)
  guarded : ∀ v b, e.decls.bindings.get? v = some b → s.types.get? v ≠ none → s.IsChecked b
  checked : ∀ b, ¬ U b → (e.tree.kind b).isBinding = true → ¬ e.tree.IsLocal b → s.IsChecked b →
    ∀ fuel r, worked e fuel b = some r → (s.Clean → r.2.Clean) ∧
      ∀ v, e.decls.bindings.get? v = some b →
        (s.types.get? v).getD .error = (r.2.types.get? v).getD .error

def Underway (e : Env) (fuel : Nat) (U : NodeId → Prop) : Prop :=
  ∀ d, U d → (e.tree.kind d).isDeclaration = true ∧ ∀ k < fuel, own e k d = none

/-- One run goes the way of another: they have the same view of their states, and `s'` is clean
just if `C` holds and `s` is. -/
structure Matches (e : Env) (V : State → State → Prop) (C : Prop) (U : NodeId → Prop)
    (s s' : State) : Prop where
  view : V s s'
  clean : s'.Clean ↔ C ∧ s.Clean
  faithful : Faithful e U s'

def Steady (e : Env) (U : NodeId → Prop) (V : State → State → Prop) : Prop :=
  ∀ s s' s₁ s₁', V s s' → Upholds e U s s₁ → Upholds e U s' s₁' → V s₁ s₁'

theorem Underway.mono {fuel fuel' : Nat} (h : Underway e fuel U) (hle : fuel' ≤ fuel) :
    Underway e fuel' U :=
  fun d hd => ⟨(h d hd).1, fun k hk => (h d hd).2 k (Nat.lt_of_lt_of_le hk hle)⟩

theorem Underway.begin {fuel : Nat} (h : Underway e fuel U)
    (hd : (e.tree.kind d).isDeclaration = true) (hleast : ∀ k < fuel, own e k d = none) :
    Underway e fuel fun n => n = d ∨ U n := by
  rintro n (rfl | hn)
  · exact ⟨hd, hleast⟩
  · exact h n hn

theorem State.Repeats.later {results : Nat → Option (Ty × State)} (h : s.Repeats a results)
    (hclean : s'.Clean → s.Clean) : s'.Repeats a results :=
  fun fuel r hr => ⟨(h fuel r hr).1, (h fuel r hr).2 ∘ hclean⟩

theorem Faithful.mono (hle : ∀ d, U d → U' d) (h : Faithful e U s) : Faithful e U' s :=
  ⟨fun d hd => hle d (h.idle d hd), fun d a hd => h.typed d a (hd ∘ hle d), h.subjects, h.guarded,
    fun b hb => h.checked b (hb ∘ hle b)⟩

section Collected

variable (he : e.Collected)

include he

theorem Env.Collected.isVar (hb : e.decls.bindings.get? v = some b) :
    (e.tree.kind v).isVar = true := by
  obtain ⟨⟨-, -, -, -, hv⟩, -⟩ := he.binds v b hb
  exact hv

theorem Env.Collected.unbound_of_isLocalVar (hv : e.tree.IsLocalVar v) :
    e.decls.bindings.get? v = none := by
  obtain ⟨-, b, hlocal, hbelow⟩ := hv
  cases hbound : e.decls.bindings.get? v with
  | none => rfl
  | some c =>
      obtain ⟨hbinds, hnot⟩ := he.binds v c hbound
      have heq : b = c := Tree.binding_unique he.tree (isBinding_of_isLocal he.tree hlocal)
        (he.sane.bindings v c hbound) hbelow hbinds.below
      exact absurd (heq ▸ hlocal) hnot

theorem Faithful.note (h : Faithful e U s) (hprogress : s'.inProgress = s.inProgress)
    (htypes : ∀ d, (e.tree.kind d).isDeclaration = true → s'.types.get? d = s.types.get? d)
    (hsubjects : s'.subjects = s.subjects) (hchecked : s'.checkedBindings = s.checkedBindings)
    (hclean : s'.Clean → s.Clean) : Faithful e U s' := by
  have hvar {v b : NodeId} (hb : e.decls.bindings.get? v = some b) :
      s'.types.get? v = s.types.get? v :=
    htypes v (Kind.isDeclaration_of_isVar (he.isVar hb))
  constructor
  · exact fun d hd => h.idle d (by rwa [← hprogress])
  · intro d a hd hdecl hvar hbinding ha
    exact (h.typed d a hd hdecl hvar hbinding (by rwa [← htypes d hdecl])).later hclean
  · intro ext a ha
    exact (h.subjects ext a (by rwa [← hsubjects])).later hclean
  · intro v b hb hv
    have hmarked := h.guarded v b hb (by rwa [← hvar hb])
    rwa [State.IsChecked, hchecked]
  · intro b hb hbinding hlocal hmarked fuel r hr
    rw [State.IsChecked, hchecked] at hmarked
    obtain ⟨hclean', htypes'⟩ := h.checked b hb hbinding hlocal hmarked fuel r hr
    exact ⟨hclean' ∘ hclean, fun v hv => by rw [hvar hv, htypes' v hv]⟩

end Collected

theorem Faithful.withFrames (h : Faithful e U s) (fs : List Frame) :
    Faithful e U { s with frames := fs } :=
  ⟨h.idle, h.typed, h.subjects, h.guarded, h.checked⟩

theorem contains_begin (s : State) (d n : NodeId) : (s.begin d).inProgress.contains n =
    if d = n then true else s.inProgress.contains n := by
  by_cases hn : d = n <;> simp [State.begin, Table.contains, hn]

theorem contains_settle (s : State) (d n : NodeId) (a : Ty) :
    (s.settle d a).inProgress.contains n = if d = n then false else s.inProgress.contains n := by
  by_cases hn : d = n <;> simp [State.settle, Table.contains, hn]

theorem get?_settle (s : State) (d n : NodeId) (a : Ty) :
    (s.settle d a).types.get? n = if d = n then some a else s.types.get? n :=
  Table.get?_insert ..

theorem Faithful.begin (h : Faithful e U s) (d : NodeId) :
    Faithful e (fun n => n = d ∨ U n) (s.begin d) := by
  have hlater : Faithful e (fun n => n = d ∨ U n) s := h.mono fun _ => .inr
  refine ⟨fun n hn => ?_, hlater.typed, hlater.subjects, hlater.guarded, hlater.checked⟩
  rw [contains_begin] at hn
  split at hn
  · next heq => exact .inl heq.symm
  · exact .inr (h.idle n hn)

theorem Upholds.settle (hd : ¬ U d) (hinner : ¬ e.tree.IsLocalVar d)
    (hidle : s.inProgress.contains d = false) (h : Upholds e U (s.begin d) s₁) :
    Upholds e U s (s₁.settle d a) := by
  refine ⟨h.frames, fun n => ?_, fun n hn => ?_, h.locals, h.marked⟩
  · rw [contains_settle, h.inProgress, contains_begin]
    split
    · next heq => rw [← heq, hidle]
    · rfl
  · rw [get?_settle, if_neg ?_]
    · exact h.types n hn
    · rintro rfl
      exact hn.elim hd hinner

theorem Faithful.settle (hd : ¬ U d) (hbinding : (e.tree.kind d).isBinding = false)
    (h : Faithful e (fun n => n = d ∨ U n) s)
    (hval : (e.tree.kind d).isVar = false → s.Repeats a fun fuel => own e fuel d)
    (hvar : ∀ b, e.decls.bindings.get? d = some b →
      s.IsChecked b ∧ (s.types.get? d).getD .error = a) :
    Faithful e U (s.settle d a) := by
  have hother {n : NodeId} (hn : ¬ U n) (hne : n ≠ d) : ¬ (n = d ∨ U n) := fun h =>
    h.elim hne hn
  constructor
  · intro n hn
    rw [contains_settle] at hn
    split at hn
    · cases hn
    · next hne => exact (h.idle n hn).resolve_left (Ne.symm hne)
  · intro n c hn hdecl hvar hbinding hc
    rw [get?_settle] at hc
    split at hc
    · next heq =>
        subst heq
        cases hc
        exact hval hvar
    · next hne => exact h.typed n c (hother hn (Ne.symm hne)) hdecl hvar hbinding hc
  · exact h.subjects
  · intro v b hb hv
    rw [get?_settle] at hv
    split at hv
    · next heq => exact (hvar b (heq ▸ hb)).1
    · exact h.guarded v b hb hv
  · intro b hb hisBinding hlocal hchecked fuel r hr
    have hne : b ≠ d := by
      rintro rfl
      simp [hbinding] at hisBinding
    obtain ⟨hclean, htypes⟩ := h.checked b (hother hb hne) hisBinding hlocal hchecked fuel r hr
    refine ⟨hclean, fun v hv => ?_⟩
    rw [get?_settle]
    split
    · next heq =>
        subst heq
        rw [← htypes d hv, (hvar b hv).2]
        rfl
    · exact htypes v hv

theorem Faithful.setVar (h : Faithful e U s) (hv : (e.tree.kind v).isVar = true)
    (hbound : ∀ b, e.decls.bindings.get? v = some b → U b ∧ s.IsChecked b) :
    Faithful e U { s with types := s.types.insert v a } := by
  have htype (n : NodeId) (hne : n ≠ v) : (s.types.insert v a).get? n = s.types.get? n := by
    rw [Table.get?_insert, if_neg (Ne.symm hne)]
  constructor
  · exact h.idle
  · intro d c hd hdecl hvar hbinding hc
    have hne : d ≠ v := by
      rintro rfl
      simp [hv] at hvar
    exact h.typed d c hd hdecl hvar hbinding (by rwa [htype d hne] at hc)
  · exact h.subjects
  · intro w b hb hw
    by_cases heq : w = v
    · exact (hbound b (heq ▸ hb)).2
    · exact h.guarded w b hb (by rwa [htype w heq] at hw)
  · intro b hb hbinding hlocal hchecked fuel r hr
    obtain ⟨hclean, htypes⟩ := h.checked b hb hbinding hlocal hchecked fuel r hr
    refine ⟨hclean, fun w hw => ?_⟩
    have hne : w ≠ v := by
      rintro rfl
      exact hb (hbound b hw).1
    rw [htype w hne, htypes w hw]

theorem Faithful.mark (h : Faithful e U s) (hb : U b ∨ e.tree.IsLocal b) :
    Faithful e U (s.mark b) := by
  constructor
  · exact h.idle
  · exact h.typed
  · exact h.subjects
  · exact fun v c hc hv => (isChecked_insert s b c).mpr (.inr (h.guarded v c hc hv))
  · intro c hc hbinding hlocal hchecked
    rcases (isChecked_insert s b c).mp hchecked with rfl | hchecked
    · exact absurd hb (by simp [hc, hlocal])
    · exact h.checked c hc hbinding hlocal hchecked

theorem Upholds.mark (s : State) (hb : ¬ e.tree.IsLocal b) : Upholds e U s (s.mark b) where
  frames := rfl
  inProgress := fun _ => rfl
  types := fun _ _ => rfl
  locals := by
    intro c hc
    refine (isChecked_insert s b c).trans (or_iff_right ?_)
    rintro rfl
    exact hb hc
  marked := fun c hc => (isChecked_insert s b c).mpr (.inr hc)

end Check

end LanguageService
