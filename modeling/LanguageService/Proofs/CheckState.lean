import LanguageService.Proofs.Needs

namespace LanguageService.Check

def State.program (s : State) (t : Tree) : Program := ⟨t, s.references, s.types⟩

def State.Clean (s : State) : Prop := s.diagnostics.containsError = false

def State.Soft (s : State) (v : NodeId) : Prop :=
  s.types.get? v = none ∨ s.types.get? v = some .error

def State.IsChecked (s : State) (b : NodeId) : Prop := s.checkedBindings.contains b = true

def State.Guards (s : State) (t : Tree) (x : NodeId) : Prop :=
  ∀ b, (t.kind b).isBinding = true → t.Below b x → s.IsChecked b

/-- What has been done to a state. Entries of expressions, and of types written at bindings, have
changed in `region` only, or below bindings that had not been checked. -/
structure Effect (t : Tree) (region : NodeId → Prop) (s s' : State) : Prop where
  clean : s'.Clean → s.Clean
  decls : ∀ d ty, (t.kind d).isDeclaration = true → s.types.get? d = some ty →
    ((t.kind d).isVar = true → ty ≠ .error) → s'.types.get? d = some ty
  checked : ∀ b, s.IsChecked b → s'.IsChecked b
  types : ∀ x, t.IsSteady x → ¬ region x → s.Guards t x → s'.types.get? x = s.types.get? x
  references : ∀ x, t.IsSteady x → ¬ region x → s.Guards t x →
    s'.references.get? x = s.references.get? x
  soft : ∀ v, (t.kind v).isVar = true → ¬ region v → s.Guards t v → s.Soft v → s'.Soft v
  keeps : t.KeepsNeeds s.references s'.references

structure Resumes (t : Tree) (s s' : State) : Prop where
  inProgress : ∀ d, s'.inProgress.get? d = s.inProgress.get? d
  busy : ∀ d, (t.kind d).isDeclaration = true → (t.kind d).isVar = false →
    s.inProgress.contains d = true → s'.types.get? d = s.types.get? d

section Effects

variable {t : Tree} {region region' : NodeId → Prop} {s s₁ s' : State}

theorem Effect.refl (s : State) : Effect t region s s where
  clean := id
  decls := fun _ _ _ h _ => h
  checked := fun _ => id
  types := fun _ _ _ _ => rfl
  references := fun _ _ _ _ => rfl
  soft := fun _ _ _ _ => id
  keeps := .refl _

theorem State.Guards.later {x : NodeId} (h : Effect t region s s') (hx : s.Guards t x) :
    s'.Guards t x :=
  fun b hb hbelow => h.checked b (hx b hb hbelow)

theorem Effect.trans (h : Effect t region s s₁) (h' : Effect t region s₁ s') :
    Effect t region s s' where
  clean := h.clean ∘ h'.clean
  decls := fun d ty hd hty hvar => h'.decls d ty hd (h.decls d ty hd hty hvar) hvar
  checked := fun b hb => h'.checked b (h.checked b hb)
  types := by
    intro x hx hout hguard
    rw [h'.types x hx hout (hguard.later h), h.types x hx hout hguard]
  references := by
    intro x hx hout hguard
    rw [h'.references x hx hout (hguard.later h), h.references x hx hout hguard]
  soft := fun v hv hout hguard hsoft =>
    h'.soft v hv hout (hguard.later h) (h.soft v hv hout hguard hsoft)
  keeps := h.keeps.trans h'.keeps

theorem Effect.within (h : Effect t region s s')
    (hsub : ∀ x, t.IsSteady x ∨ (t.kind x).isVar = true → s.Guards t x → region x → region' x) :
    Effect t region' s s' where
  clean := h.clean
  decls := h.decls
  checked := h.checked
  types := fun x hx hout hguard =>
    h.types x hx (fun hin => hout (hsub x (.inl hx) hguard hin)) hguard
  references := fun x hx hout hguard =>
    h.references x hx (fun hin => hout (hsub x (.inl hx) hguard hin)) hguard
  soft := fun v hv hout hguard =>
    h.soft v hv (fun hin => hout (hsub v (.inr hv) hguard hin)) hguard
  keeps := h.keeps

theorem Effect.extends (h : Effect t region s s') :
    Program.Extends (s.program t) (s'.program t) :=
  ⟨rfl, h.decls⟩

theorem Effect.settled {x : NodeId} (h : Effect t region s s')
    (hout : ∀ y, t.Below x y → t.IsSteady y → ¬ region y)
    (hguard : ∀ y, t.Below x y → t.IsSteady y → s.Guards t y) :
    Program.Settled (s.program t) (s'.program t) x where
  toExtends := h.extends
  types := fun y hy hsteady => h.types y hsteady (hout y hy hsteady) (hguard y hy hsteady)
  references := fun y hy hsteady =>
    h.references y hsteady (hout y hy hsteady) (hguard y hy hsteady)

theorem Resumes.refl (s : State) : Resumes t s s := ⟨fun _ => rfl, fun _ _ _ _ => rfl⟩

theorem Resumes.trans (h : Resumes t s s₁) (h' : Resumes t s₁ s') : Resumes t s s' where
  inProgress := fun d => (h'.inProgress d).trans (h.inProgress d)
  busy := by
    intro d hd hvar hbusy
    have hbusy' : s₁.inProgress.contains d = true := by rwa [Table.contains, h.inProgress d]
    rw [h'.busy d hd hvar hbusy', h.busy d hd hvar hbusy]

end Effects

def IsLocal (t : Tree) (p : String × NodeId) : Prop :=
  ((t.kind p.2).isVar = true ∨ (t.kind p.2).isParameter = true) ∧
    (t.kind p.2).declared = some p.1 ∧ ¬ t.IsImplied p.2

/-- Of each parameter it is known that it has the given type, unless it needs itself. -/
def State.Takes (s : State) (t : Tree) (ps : List NodeId) (ts : List Ty) : Prop :=
  List.Forall₂ (fun p a => t.IsCircular s.references p ∨ s.types.get? p = some a) ps ts

theorem State.Takes.later {t : Tree} {region : NodeId → Prop} {s s' : State} {ps : List NodeId}
    {ts : List Ty} (h : s.Takes t ps ts) (hps : ∀ p ∈ ps, (t.kind p).isParameter = true)
    (heffect : Effect t region s s') : s'.Takes t ps ts := by
  refine ((List.forall₂_and_left _ _).mpr ⟨hps, h⟩).imp ?_
  rintro p a ⟨hp, hcircular | hty⟩
  · exact .inl (hcircular.later heffect.keeps)
  · refine .inr (heffect.decls p a (Kind.isDeclaration_of_isParameter hp) hty fun hvar => ?_)
    simp [Kind.isParameter_of_isVar hvar] at hp

structure Invariant (t : Tree) (opened : NodeId → Prop) (s : State) : Prop where
  done : s.Clean → ∀ b, (t.kind b).isBinding = true → s.IsChecked b → ¬ opened b →
    ∀ x, t.Below b x → (s.program t).Lawful x
  bound : ∀ v, (t.kind v).isVar = true → ¬ s.Soft v → s.Guards t v
  untouched : ∀ b, (t.kind b).isBinding = true → ¬ s.IsChecked b →
    ∀ x, t.Below b x → (t.kind x).isExpr = true → s.references.get? x = none
  frames : ∀ f ∈ s.frames, ∀ p ∈ f, IsLocal t p
  proper : ∀ i ty, s.types.get? i = some ty → ty.proper t = true
  plain : ∀ d x n k ty, t.kind d = .typeAlias x n k → s.types.get? d = some ty → ty.plain t = true
  subjects : ∀ d ty, s.subjects.get? d = some ty → ty.plain t = true
  metatypes : ∀ n ty, (t.kind n).isExpr = true → s.types.get? n = some (.metatype ty) →
    ∃ domain x, t.kind n = .name domain x
  points : ∀ n r, s.references.get? n = some r → (s.program t).Points n r
  inText : ∀ n r, s.references.get? n = some r → r.InText t
  entered : ∀ b v, t.BindsOutside b v → s.types.get? v ≠ none → s.IsChecked b
  stored : ∀ p v b a, t.Sets p v b → s.types.get? p = some a →
    t.IsCircular s.references p ∨ s.types.get? v = some a ∧ ¬ opened b
  inputs : ∀ i introducer ps body synthesized ty, t.kind i = .init introducer ps body synthesized →
    s.types.get? i = some ty → ∃ ts output, ty = .function ts output ∧ s.Takes t ps ts

structure Moves (t : Tree) (opened region : NodeId → Prop) (s s' : State) : Prop where
  effect : Effect t region s s'
  resumes : Resumes t s s'
  invariant : Invariant t opened s'

section Moving

variable {t : Tree} {opened region region' : NodeId → Prop} {s s₁ s' : State}

theorem Moves.refl (h : Invariant t opened s) : Moves t opened region s s :=
  ⟨.refl s, .refl s, h⟩

theorem Moves.trans (h : Moves t opened region s s₁) (h' : Moves t opened region s₁ s') :
    Moves t opened region s s' :=
  ⟨h.effect.trans h'.effect, h.resumes.trans h'.resumes, h'.invariant⟩

theorem Moves.within (h : Moves t opened region s s')
    (hsub : ∀ x, t.IsSteady x ∨ (t.kind x).isVar = true → s.Guards t x → region x → region' x) :
    Moves t opened region' s s' :=
  ⟨h.effect.within hsub, h.resumes, h.invariant⟩

theorem Moves.widen (h : Moves t opened region s s') (hsub : ∀ x, region x → region' x) :
    Moves t opened region' s s' :=
  h.within fun x _ _ hx => hsub x hx

def nowhere (_ : NodeId) : Prop := False

theorem Moves.anywhere (h : Moves t opened nowhere s s') : Moves t opened region s s' :=
  h.widen fun _ hx => hx.elim

theorem Invariant.done_later (ht : t.WellFormed) (h : Invariant t opened s)
    (heffect : Effect t region s s')
    (hregion : ∀ x, t.IsSteady x → region x → ∀ b, (t.kind b).isBinding = true →
      t.Below b x → opened b)
    (hchecked : ∀ b, s'.IsChecked b → ¬ opened b → s.IsChecked b) :
    s'.Clean → ∀ b, (t.kind b).isBinding = true → s'.IsChecked b → ¬ opened b →
      ∀ x, t.Below b x → (s'.program t).Lawful x := by
  intro hclean b hb hbchecked hclosed x hx
  have hdone := h.done (heffect.clean hclean) b hb (hchecked b hbchecked hclosed) hclosed x hx
  refine hdone.stable (heffect.settled ?_ ?_) ht heffect.keeps
  · intro y hy hsteady hin
    exact hclosed (hregion y hsteady hin b hb (hx.trans hy))
  · intro y hy hsteady b' hb' hbelow
    rw [Tree.binding_unique ht hb' hb hbelow (hx.trans hy)]
    exact hchecked b hbchecked hclosed

end Moving

def Ends {α : Type} (m : CheckM α) (s : State) (Q : α → State → Prop) : Prop :=
  ∀ a s', m s = some (a, s') → Q a s'

namespace Ends

variable {α β : Type} {m : CheckM α} {f : α → CheckM β} {s : State}

theorem mono {Q Q' : α → State → Prop} (h : Ends m s Q) (hQ : ∀ a s', Q a s' → Q' a s') :
    Ends m s Q' :=
  fun a s' hm => hQ a s' (h a s' hm)

theorem bind {R : α → State → Prop} {Q : β → State → Prop} (h : Ends m s R)
    (hf : ∀ a s₁, R a s₁ → Ends (f a) s₁ Q) : Ends (m >>= f) s Q := by
  intro b s' hb
  obtain ⟨⟨a, s₁⟩, hm, hfa⟩ := Option.bind_eq_some_iff.mp hb
  exact hf a s₁ (h a s₁ hm) b s' hfa

theorem pure {Q : α → State → Prop} {a : α} (h : Q a s) : Ends (Pure.pure a) s Q := by
  intro b s' hb
  cases hb
  exact h

theorem modify {Q : Unit → State → Prop} {f : State → State} (h : Q () (f s)) :
    Ends (modify f) s Q := by
  intro b s' hb
  cases hb
  exact h

theorem get {Q : β → State → Prop} {f : State → CheckM β} (h : Ends (f s) s Q) :
    Ends (MonadState.get >>= f) s Q := h

theorem typeOf {Q : β → State → Prop} {n : NodeId} {f : Option Ty → CheckM β}
    (h : Ends (f (s.types.get? n)) s Q) : Ends (Check.typeOf n >>= f) s Q := h

end Ends

structure Quiet (s s' : State) : Prop where
  clean : s'.Clean → s.Clean
  same : s' = { s with diagnostics := s'.diagnostics }

theorem Quiet.refl (s : State) : Quiet s s := ⟨id, rfl⟩

theorem Quiet.trans {s s₁ s' : State} (h : Quiet s s₁) (h' : Quiet s₁ s') : Quiet s s' where
  clean := h.clean ∘ h'.clean
  same := by
    rw [h'.same, h.same]

section Primitives

variable {t : Tree} {opened region : NodeId → Prop} {s s' : State}

theorem Quiet.effect (h : Quiet s s') : Effect t region s s' := by
  obtain ⟨hclean, hsame⟩ := h
  rw [hsame] at hclean ⊢
  exact ⟨hclean, fun _ _ _ h _ => h, fun _ => id, fun _ _ _ _ => rfl, fun _ _ _ _ => rfl,
    fun _ _ _ _ => id, .refl _⟩

theorem Quiet.moves (h : Quiet s s') (hinv : Invariant t opened s) :
    Moves t opened region s s' := by
  refine ⟨h.effect, ?_, ?_⟩
  · rw [h.same]
    exact ⟨fun _ => rfl, fun _ _ _ _ => rfl⟩
  · obtain ⟨hclean, hsame⟩ := h
    rw [hsame] at hclean ⊢
    exact ⟨fun hc => hinv.done (hclean hc), hinv.bound, hinv.untouched, hinv.frames, hinv.proper,
      hinv.plain, hinv.subjects, hinv.metatypes, hinv.points, hinv.inText, hinv.entered,
      hinv.stored, hinv.inputs⟩

theorem isError_of_beq {d d' : Diagnostic} (h : (d' == d) = true) (hd : d.isError = true) :
    d'.isError = true := by
  change instBEqDiagnostic.beq d' d = true at h
  rw [instBEqDiagnostic.beq.eq_def, Bool.and_eq_true] at h
  rw [Diagnostic.isError, eq_of_beq h.1]
  exact hd

theorem containsError_insert (ds : DiagnosticSet) {d : Diagnostic} (hd : d.isError = true) :
    (ds.insert d).containsError = true := by
  rw [DiagnosticSet.insert]
  split
  · next hin =>
      obtain ⟨d', hmem, heq⟩ := List.any_eq_true.mp hin
      exact List.any_eq_true.mpr ⟨d', hmem, isError_of_beq heq hd⟩
  · simp [DiagnosticSet.containsError, hd]

theorem not_clean_insert (s : State) {d : Diagnostic} (hd : d.isError = true) :
    ¬ State.Clean { s with diagnostics := s.diagnostics.insert d } := by
  simp [State.Clean, containsError_insert s.diagnostics hd]

theorem complain_spec (e : Env) (site : Site) (c : Complaint) (s : State) :
    Ends (complain e site c) s fun _ s' => Quiet s s' ∧ ¬ s'.Clean := by
  have hunclean : ¬ State.Clean { s with
      diagnostics := s.diagnostics.insert (.error c.code site (c.message e.tree)) } :=
    not_clean_insert s rfl
  exact .modify ⟨⟨fun hclean => absurd hclean hunclean, rfl⟩, hunclean⟩

theorem expect_spec (e : Env) (expected found : Ty) (node : NodeId) (s : State) :
    Ends (expect e expected found node) s fun _ s' =>
      Quiet s s' ∧ (s'.Clean → found.compatible expected = true) := by
  rw [expect]
  split
  · next hcompatible => exact .pure ⟨.refl _, fun _ => hcompatible⟩
  · refine (complain_spec e _ _ s).mono fun _ s' h => ?_
    exact ⟨h.1, fun hclean => absurd hclean h.2⟩

theorem mem_parameterFrame {e : Env} {ps : List NodeId} {q : String × NodeId}
    (hq : q ∈ parameterFrame e ps) :
    q.2 ∈ ps ∧ (e.tree.kind q.2).declared = some q.1 := by
  obtain ⟨p, hp, hq⟩ := List.mem_filterMap.mp (List.mem_reverse.mp hq)
  obtain ⟨x, hx, rfl⟩ := Option.map_eq_some_iff.mp hq
  exact ⟨hp, by rw [Kind.declared, hx, Option.map_some]⟩

theorem forall_mem_bindLocal {P : String × NodeId → Prop} {x : String} {v : NodeId}
    {frames : List Frame} (hv : P (x, v)) (h : ∀ f ∈ frames, ∀ p ∈ f, P p) :
    ∀ f ∈ bindLocal x v frames, ∀ p ∈ f, P p := by
  cases frames with
  | nil => simp [bindLocal]
  | cons f fs =>
      rw [List.forall_mem_cons] at h
      rw [bindLocal]
      exact List.forall_mem_cons.mpr ⟨List.forall_mem_cons.mpr ⟨hv, h.1⟩, h.2⟩

theorem moves_frames {frames : List Frame} (hinv : Invariant t opened s)
    (hframes : ∀ f ∈ frames, ∀ p ∈ f, IsLocal t p) :
    Moves t opened region s { s with frames := frames } :=
  ⟨⟨id, fun _ _ _ h _ => h, fun _ => id, fun _ _ _ _ => rfl, fun _ _ _ _ => rfl,
    fun _ _ _ _ => id, .refl _⟩, ⟨fun _ => rfl, fun _ _ _ _ => rfl⟩,
    ⟨hinv.done, hinv.bound, hinv.untouched, hframes, hinv.proper, hinv.plain, hinv.subjects,
      hinv.metatypes, hinv.points, hinv.inText, hinv.entered, hinv.stored, hinv.inputs⟩⟩

theorem Effect.setType {n : NodeId} {ty : Ty}
    (hdecl : ∀ old, (t.kind n).isDeclaration = true → s.types.get? n = some old →
      ((t.kind n).isVar = true → old ≠ .error) → ty = old)
    (hsteady : t.IsSteady n → region n)
    (hsoft : (t.kind n).isVar = true → ¬ region n → s.Soft n → ty = .error) :
    Effect t region s { s with types := s.types.insert n ty } where
  clean := id
  decls := by
    intro d old hd hold hvar
    rw [Table.get?_insert]
    split
    · next heq =>
        subst heq
        rw [hdecl old hd hold hvar]
    · exact hold
  checked := fun _ => id
  types := by
    intro x hx hout _
    rw [Table.get?_insert, if_neg]
    rintro rfl
    exact hout (hsteady hx)
  references := fun _ _ _ _ => rfl
  soft := by
    intro v hv hout _ hsoft'
    by_cases heq : n = v
    · subst heq
      right
      rw [Table.get?_insert, if_pos rfl, hsoft hv hout hsoft']
    · simpa [State.Soft, heq] using hsoft'
  keeps := .refl _

/-- An expression that is about to get the type `a` has not been called, and can stand for a type
only if it is a name. -/
def State.Uncalled (s : State) (t : Tree) (n : NodeId) (a : Ty) : Prop :=
  (∀ i, s.references.get? n ≠ some (.constructor i)) ∧
    (a.isMetatype = true → ∃ domain x, t.kind n = .name domain x)

theorem Invariant.uncalled {n : NodeId} {a : Ty} (hinv : Invariant t opened s)
    (hn : ∀ domain x, t.kind n ≠ .name domain x) (ha : a.plain t = true) : s.Uncalled t n a := by
  refine ⟨fun i href => ?_, fun hmeta => ?_⟩
  · obtain ⟨domain, x, _, _, _, hk, -⟩ := hinv.points n _ href
    exact hn domain x hk
  · simp [Ty.plain, hmeta] at ha

theorem Invariant.setType {n : NodeId} {ty : Ty} (ht : t.WellFormed) (hinv : Invariant t opened s)
    (heffect : Effect t region s { s with types := s.types.insert n ty })
    (hregion : ∀ x, t.IsSteady x → region x → ∀ b, (t.kind b).isBinding = true →
      t.Below b x → opened b)
    (hproper : ty.proper t = true)
    (hplain : ∀ x y k, t.kind n = .typeAlias x y k → ty.plain t = true)
    (hbound : (t.kind n).isVar = true → ty ≠ .error → s.Guards t n)
    (hexpr : (t.kind n).isExpr = true → s.Uncalled t n ty)
    (hvar : ∀ b, t.BindsOutside b n → s.IsChecked b ∧
      ∀ old, s.types.get? n = some old → ¬ opened b → ty = old)
    (hstored : ∀ v b, t.Sets n v b →
      t.IsCircular s.references n ∨ s.types.get? v = some ty ∧ ¬ opened b)
    (hinputs : ∀ introducer ps body synthesized, t.kind n = .init introducer ps body synthesized →
      ∃ ts output, ty = .function ts output ∧ s.Takes t ps ts) :
    Invariant t opened { s with types := s.types.insert n ty } where
  done := hinv.done_later ht heffect hregion fun _ hb _ => hb
  bound := by
    intro v hv hsoft
    by_cases heq : n = v
    · subst heq
      refine hbound hv fun herror => hsoft (.inr ?_)
      simp [herror]
    · exact hinv.bound v hv fun hsoft' => hsoft (by simpa [State.Soft, heq] using hsoft')
  untouched := hinv.untouched
  frames := hinv.frames
  proper := by
    intro i ty' hi
    rw [Table.get?_insert] at hi
    split at hi
    · cases hi
      exact hproper
    · exact hinv.proper i ty' hi
  plain := by
    intro d x y k ty' hd hi
    rw [Table.get?_insert] at hi
    split at hi
    · next heq =>
        cases hi
        subst heq
        exact hplain x y k hd
    · exact hinv.plain d x y k ty' hd hi
  subjects := hinv.subjects
  metatypes := by
    intro m ty' hm hi
    rw [Table.get?_insert] at hi
    split at hi
    · next heq =>
        cases hi
        subst heq
        exact (hexpr hm).2 rfl
    · exact hinv.metatypes m ty' hm hi
  points := by
    intro m r hr
    refine (hinv.points m r hr).later rfl fun i hi => ?_
    subst hi
    have hne : n ≠ m := by
      rintro rfl
      obtain ⟨domain, x, _, _, _, hk, -⟩ := hinv.points n _ hr
      have hname : (t.kind n).isExpr = true := by
        change t.kind n = _ at hk
        rw [hk]
        rfl
      exact (hexpr hname).1 i hr
    simp [State.program, hne]
  inText := hinv.inText
  entered := by
    intro b v hb hv
    by_cases heq : n = v
    · subst heq
      exact (hvar b hb).1
    · rw [Table.get?_insert, if_neg heq] at hv
      exact hinv.entered b v hb hv
  stored := by
    intro p v b a hsets hp
    have hkept (h : t.IsCircular s.references p ∨ s.types.get? v = some a ∧ ¬ opened b) :
        t.IsCircular s.references p ∨ (s.types.insert n ty).get? v = some a ∧ ¬ opened b := by
      refine h.imp_right fun ⟨hv, hclosed⟩ => ⟨?_, hclosed⟩
      rw [Table.get?_insert]
      split
      · next heq =>
          subst heq
          rw [(hvar b hsets.binds).2 a hv hclosed]
      · exact hv
    rw [Table.get?_insert] at hp
    split at hp
    · next heq =>
        subst heq
        cases hp
        exact hkept (hstored v b hsets)
    · exact hkept (hinv.stored p v b a hsets hp)
  inputs := by
    intro i introducer ps body synthesized ty' hk hi
    have hps : ∀ p ∈ ps, (t.kind p).isParameter = true := fun p hp =>
      ht.fits i (Kind.isParameter, p) (by simp [hk, Kind.parts, hp])
    rw [Table.get?_insert] at hi
    split at hi
    · next heq =>
        subst heq
        cases hi
        obtain ⟨ts, output, rfl, htakes⟩ := hinputs introducer ps body synthesized hk
        exact ⟨ts, output, rfl, htakes.later hps heffect⟩
    · obtain ⟨ts, output, rfl, htakes⟩ := hinv.inputs i introducer ps body synthesized ty' hk hi
      exact ⟨ts, output, rfl, htakes.later hps heffect⟩

theorem moves_setType {n : NodeId} {ty : Ty} (ht : t.WellFormed) (hinv : Invariant t opened s)
    (hn : (t.kind n).isDeclaration = false) (hproper : ty.proper t = true)
    (hopen : t.IsSteady n → ∀ b, (t.kind b).isBinding = true → t.Below b n → opened b)
    (hexpr : (t.kind n).isExpr = true → s.Uncalled t n ty) :
    Moves t opened (· = n) s { s with types := s.types.insert n ty } := by
  have heffect : Effect t (· = n) s { s with types := s.types.insert n ty } :=
    .setType (by simp [hn]) (fun _ => rfl) fun _ hne => absurd rfl hne
  refine ⟨heffect, ⟨fun _ => rfl, fun d hd _ _ => ?_⟩,
    hinv.setType ht heffect ?_ hproper ?_ ?_ hexpr ?_ ?_ ?_⟩
  · rw [Table.get?_insert, if_neg]
    rintro rfl
    simp [hn] at hd
  · rintro x hx rfl
    exact hopen hx
  · intro x y k hk
    simp [hk, Kind.isDeclaration] at hn
  · intro hvar
    simp [Kind.isDeclaration_of_isVar hvar] at hn
  · intro b hb
    simp [Kind.isDeclaration_of_isVar hb.isVar] at hn
  · rintro v b ⟨⟨x, hk⟩, -, -⟩
    simp [hk, Kind.isDeclaration] at hn
  · intro introducer ps body synthesized hk
    simp [hk, Kind.isDeclaration] at hn

theorem moves_refer {n : NodeId} {r : Reference} (ht : t.WellFormed) (hinv : Invariant t opened s)
    (hpoints : (s.program t).Points n r) (htext : r.InText t)
    (hkeeps : t.KeepsNeeds s.references (s.references.insert n r))
    (hopen : t.IsSteady n → ∀ b, (t.kind b).isBinding = true → t.Below b n →
      s.IsChecked b ∧ opened b) :
    Moves t opened (· = n) s { s with references := s.references.insert n r } := by
  have heffect : Effect t (· = n) s { s with references := s.references.insert n r } := by
    refine ⟨id, fun _ _ _ h _ => h, fun _ => id, fun _ _ _ _ => rfl, ?_, fun _ _ _ _ => id,
      hkeeps⟩
    intro x _ hne _
    rw [Table.get?_insert, if_neg (Ne.symm hne)]
  refine ⟨heffect, ⟨fun _ => rfl, fun _ _ _ _ => rfl⟩, ?_, hinv.bound, ?_, hinv.frames,
    hinv.proper, hinv.plain, hinv.subjects, hinv.metatypes, ?_, ?_, hinv.entered, ?_, ?_⟩
  · refine hinv.done_later ht heffect ?_ fun _ hb _ => hb
    rintro x hx rfl b hb hbelow
    exact (hopen hx b hb hbelow).2
  · intro b hb hunchecked x hx hexpr
    rw [Table.get?_insert, if_neg]
    · exact hinv.untouched b hb hunchecked x hx hexpr
    · rintro rfl
      exact hunchecked (hopen (.inl hexpr) b hb hx).1
  · intro m r' hr'
    rw [Table.get?_insert] at hr'
    split at hr'
    · next heq =>
        cases hr'
        exact (heq ▸ hpoints).later rfl fun _ _ => rfl
    · exact (hinv.points m r' hr').later rfl fun _ _ => rfl
  · intro m r' hr'
    rw [Table.get?_insert] at hr'
    split at hr'
    · cases hr'
      exact htext
    · exact hinv.inText m r' hr'
  · intro p v b a hsets hp
    exact (hinv.stored p v b a hsets hp).imp_left fun h => h.later hkeeps
  · intro i introducer ps body synthesized ty hk hi
    obtain ⟨ts, output, hty, htakes⟩ := hinv.inputs i introducer ps body synthesized ty hk hi
    exact ⟨ts, output, hty, htakes.imp fun _ _ h => h.imp_left fun h => h.later hkeeps⟩

end Primitives

end LanguageService.Check
