import LanguageService.Proofs.Remembering

namespace LanguageService.Check

variable {e : Env} {V : State → State → Prop} {C : Prop} {U : NodeId → Prop} {s : State}

def Meets (e : Env) (U : NodeId → Prop) (m : CheckM Ty) (s : State) (r : Ty × State) : Prop :=
  ∃ s', m s = some (r.1, s') ∧ Upholds e U s s' ∧ (s'.Clean ↔ s.Clean ∧ r.2.Clean) ∧
    Faithful e U s'

/-- Jobs that find types come to the same whether what has been worked out is remembered or not. -/
def Agrees (e : Env) (fuel : Nat) (U : NodeId → Prop) : Prop :=
  ∀ V C, Steady e U V → ∀ j, j.IsTyping e →
    Tracks (Matches e V C U) (afresh e fuel j) (perform e fuel j)

section Noting

variable (he : e.Collected) (hU : ∀ d, U d → (e.tree.kind d).isDeclaration = true)
  (hsteady : Steady e U V)

include he hU hsteady

theorem matches_note {g : State → State} (hsame : ∀ s, (g s).frames = s.frames ∧
      (g s).inProgress = s.inProgress ∧ (g s).subjects = s.subjects ∧
        (g s).checkedBindings = s.checkedBindings)
    (htypes : ∀ s d, (e.tree.kind d).isDeclaration = true →
      (g s).types.get? d = s.types.get? d)
    (hclean : (∀ s, (g s).Clean ↔ s.Clean) ∨ ∀ s, ¬ (g s).Clean) :
    Tracks (Matches e V C U) (modify g) (modify g) := by
  have hupholds (s : State) : Upholds e U s (g s) := by
    obtain ⟨hframes, hprogress, -, hchecked⟩ := hsame s
    refine ⟨hframes, fun d => by rw [hprogress], fun d hd => htypes s d ?_, fun b _ => ?_,
      fun b hb => ?_⟩
    · exact hd.elim (hU d) fun hd => Kind.isDeclaration_of_isVar hd.1
    · rw [State.IsChecked, hchecked, State.IsChecked]
    · rwa [State.IsChecked, hchecked]
  refine .modify fun s s' hs => ⟨hsteady _ _ _ _ hs.view (hupholds s) (hupholds s'), ?_, ?_⟩
  · rcases hclean with hclean | hclean
    · rw [hclean, hclean, hs.clean]
    · simp [hclean]
  · obtain ⟨-, hprogress, hsubjects, hchecked⟩ := hsame s'
    refine hs.faithful.note he hprogress (htypes s') hsubjects hchecked fun h => ?_
    rcases hclean with hclean | hclean
    · exact (hclean s').mp h
    · exact absurd h (hclean s')

theorem stable_matches : Stable e (Matches e V C U) where
  refer n r := matches_note he hU hsteady (fun _ => ⟨rfl, rfl, rfl, rfl⟩) (fun _ _ _ => rfl)
    (.inl fun _ => .rfl)
  complain site c := matches_note he hU hsteady (fun _ => ⟨rfl, rfl, rfl, rfl⟩)
    (fun _ _ _ => rfl) (.inr fun s => (complain_spec e site c s () _ rfl).2)
  setType n a hn := by
    refine matches_note he hU hsteady (fun _ => ⟨rfl, rfl, rfl, rfl⟩) (fun s d hd => ?_)
      (.inl fun _ => .rfl)
    have hne : n ≠ d := by
      rintro rfl
      simp [hn] at hd
    simp [hne]

end Noting

section Sharing

variable {fuel : Nat} {r : Ty × State}

theorem Meets.remembered {m : CheckM Ty} {a : Ty} (hs : Faithful e U s) (hm : m s = some (a, s))
    (h : r.1 = a ∧ (s.Clean → r.2.Clean)) : Meets e U m s r :=
  ⟨s, by rw [hm, h.1], .refl s, (and_iff_left_of_imp h.2).symm, hs⟩

theorem Meets.refines {m m' : CheckM Ty} (h : Meets e U m s r) (hm : Refines m m') :
    Meets e U m' s r := by
  obtain ⟨s', hs', hrest⟩ := h
  exact ⟨s', hm _ _ hs', hrest⟩

theorem tracks_of_meets {j : Job} (hj : j.isShared e = true)
    (hbinding : ∀ b c i, j ≠ .binding b c i)
    (hsteady : Steady e U V) (h : ∀ r s, apart e fuel j = some r → Faithful e U s →
      Meets e U (perform e (fuel + 1) j) s r) :
    Tracks (Matches e V C U) (afresh e (fuel + 1) j) (perform e (fuel + 1) j) := by
  intro s s' hs a s₁ ha
  rw [afresh_shared hj] at ha
  obtain ⟨r, hr, heq⟩ := Option.map_eq_some_iff.mp ha
  cases heq
  obtain ⟨s₁', hs₁', hupholds, hclean, hfaithful⟩ := h r s' hr hs.faithful
  refine ⟨s₁', hs₁', hsteady _ _ _ _ hs.view ?_ hupholds, ?_, hfaithful⟩
  · refine ⟨rfl, fun _ => rfl, fun d _ => ?_, fun _ _ => .rfl, fun _ => id⟩
    cases j <;> first | rfl | exact absurd rfl (hbinding _ _ _)
  · rw [hclean, hs.clean, clean_absorb, and_assoc]

theorem Meets.settle {d : NodeId} {m m' : CheckM Ty} {a : Ty} {o : State}
    (hd : ¬ U d) (hvar : (e.tree.kind d).isVar = false)
    (hbinding : (e.tree.kind d).isBinding = false) (he : e.Collected) (hs : Faithful e U s)
    (hown : own e fuel d = some (a, o.settle d a)) (hm : m (State.blank.begin d) = some (a, o))
    (htracks : ∀ V C, Steady e (fun n => n = d ∨ U n) V →
      Tracks (Matches e V C fun n => n = d ∨ U n) m m') {m₁ : CheckM Ty}
    (hm₁ : m₁ s = (m' (s.begin d)).map fun r => (r.1, r.2.settle d r.1)) :
    Meets e U m₁ s (a, o.settle d a) := by
  have hview : Steady e (fun n => n = d ∨ U n) fun _ s' => Upholds e U (s.begin d) s' :=
    fun _ _ _ _ h _ h' => h.trans (h'.mono fun _ => .inr)
  have hidle : s.inProgress.contains d = false := Bool.eq_false_iff.mpr fun h => hd (hs.idle d h)
  obtain ⟨s₁, hs₁, hupholds, hclean, hfaithful⟩ := htracks _ s.Clean hview (State.blank.begin d)
    (s.begin d) ⟨.refl _, (and_iff_left clean_blank).symm, hs.begin d⟩ a o hm
  refine ⟨s₁.settle d a, hm₁.trans (Option.map_eq_some_iff.mpr ⟨_, hs₁, rfl⟩),
    hupholds.settle hd (fun h => by simp [h.1] at hvar) hidle, hclean, ?_⟩
  · refine hfaithful.settle hd hbinding (fun _ fuel' r hr => ?_) fun b hb => ?_
    · rw [own_unique hr hown]
      exact ⟨rfl, fun h => (hclean.mp h).2⟩
    · simp [he.isVar hb] at hvar

theorem subjectType_tracks {R : State → State → Prop} {run run' : Run}
    (hrun : ∀ j, j.IsTyping e → Tracks R (run j) (run' j)) (ht : e.tree.WellFormed)
    {ext node : NodeId} (hnode : (Kind.isType, node) ∈ (e.tree.kind ext).parts) :
    Tracks R (subjectType e run ext node) (subjectType e run' ext node) := by
  rw [subjectType, subjectType]
  split
  · exact typeIn_tracks hrun ht _ hnode
  · exact .pure _

variable (he : e.Collected)

include he

theorem subject_meets (hagree : Agrees e fuel U) {ext : NodeId} (hs : Faithful e U s)
    (hr : apart e fuel (.subject ext) = some r) :
    Meets e U (subject e (perform e fuel) ext) s r := by
  cases hknown : s.subjects.get? ext with
  | some a => exact .remembered hs (subject_known hknown) (hs.subjects ext a hknown fuel r hr)
  | none =>
      have hview : Steady e U fun _ s' => Upholds e U s s' := fun _ _ _ _ h _ h' => h.trans h'
      have hfresh : subject e (afresh e fuel) ext .blank = some r := hr
      rw [subject_unknown (Table.get?_empty ext)] at hfresh
      cases hsubject : (e.tree.kind ext).subject? with
      | none =>
          rw [hsubject] at hfresh
          obtain rfl := Option.some.inj hfresh
          refine ⟨s, ?_, .refl s, (and_iff_left clean_blank).symm, hs⟩
          rw [subject_unknown hknown, hsubject]
      | some node =>
          rw [hsubject] at hfresh
          obtain ⟨⟨a, o⟩, ho, rfl⟩ := Option.map_eq_some_iff.mp hfresh
          have hpart : (Kind.isType, node) ∈ (e.tree.kind ext).parts := by
            cases hk : e.tree.kind ext <;> simp_all [Kind.subject?, Kind.parts]
          obtain ⟨s₁, hs₁, hupholds, hclean, hfaithful⟩ :=
            subjectType_tracks (hagree _ s.Clean hview) he.tree hpart .blank s
              ⟨.refl s, (and_iff_left clean_blank).symm, hs⟩ a o ho
          refine ⟨{ s₁ with subjects := s₁.subjects.insert ext a }, ?_,
            ⟨hupholds.frames, hupholds.inProgress, hupholds.types, hupholds.locals,
              hupholds.marked⟩, hclean, ?_⟩
          · rw [subject_unknown hknown, hsubject]
            exact Option.map_eq_some_iff.mpr ⟨_, hs₁, rfl⟩
          · refine ⟨hfaithful.idle, hfaithful.typed, fun x c hc => ?_, hfaithful.guarded,
              hfaithful.checked⟩
            rw [Table.get?_insert] at hc
            split at hc
            · next heq =>
                cases hc
                subst heq
                intro fuel' r hr'
                rw [apart_unique hr' hr]
                exact ⟨rfl, fun h => (hclean.mp h).2⟩
            · exact hfaithful.subjects x c hc

theorem typeAlias_meets {d : NodeId} (hd : ¬ U d)
    (halias : (e.tree.kind d).isTypeAlias = true)
    (hagree : Agrees e fuel fun n => n = d ∨ U n) (hs : Faithful e U s)
    (hr : own e fuel d = some r) : Meets e U (typeAlias e (perform e fuel) d) s r := by
  obtain ⟨introducer, x, aliased, hk⟩ : ∃ introducer x aliased,
      e.tree.kind d = .typeAlias introducer x aliased := by
    cases hk : e.tree.kind d <;> simp_all [Kind.isTypeAlias]
  have hidle : s.inProgress.contains d = false := Bool.eq_false_iff.mpr fun h => hd (hs.idle d h)
  cases hknown : s.types.get? d with
  | some a =>
      exact .remembered hs (typeAlias_typed hknown)
        (hs.typed d a hd (by rw [hk]; rfl) (by rw [hk]; rfl) (by rw [hk]; rfl) hknown fuel r hr)
  | none =>
      have hfresh : typeAlias e (afresh e fuel) d .blank = some r := by
        rw [own_typeAlias halias] at hr
        exact hr
      rw [typeAlias_begin hk (Table.get?_empty d) rfl] at hfresh
      obtain ⟨⟨a, o⟩, ho, rfl⟩ := Option.map_eq_some_iff.mp hfresh
      exact .settle hd (by rw [hk]; rfl) (by rw [hk]; rfl) he hs hr ho
        (fun V C hsteady => typeIn_tracks (hagree V C hsteady) he.tree d (q := d)
          (by simp [hk, Kind.parts])) (typeAlias_begin hk hknown hidle)

theorem signature_meets {d : NodeId} (hd : ¬ U d) (houter : e.IsOuter d)
    (hvar : (e.tree.kind d).isVar = false) (hagree : Agrees e fuel fun n => n = d ∨ U n)
    (hs : Faithful e U s) (hr : own e fuel d = some r) :
    Meets e U (signature e (perform e fuel) d) s r := by
  have hidle : s.inProgress.contains d = false := Bool.eq_false_iff.mpr fun h => hd (hs.idle d h)
  cases hknown : s.types.get? d with
  | some a =>
      exact .remembered hs (signature_typed hknown) (hs.typed d a hd
        (Kind.isDeclaration_of_hasSignature houter.signature) hvar houter.single hknown fuel r hr)
  | none =>
      have hfresh : signature e (afresh e fuel) d .blank = some r := by
        rw [own_signature houter] at hr
        exact hr
      rw [signature_begin (Table.get?_empty d) rfl] at hfresh
      obtain ⟨⟨a, o⟩, ho, rfl⟩ := Option.map_eq_some_iff.mp hfresh
      exact .settle hd hvar houter.single he hs hr ho
        (fun V C hsteady => declaredType_tracks (hagree V C hsteady) he.tree he.toOutward
          (by simp [hvar])) (signature_begin hknown hidle)

end Sharing

end LanguageService.Check
