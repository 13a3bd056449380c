import LanguageService.Proofs.CheckState

namespace LanguageService.Check

structure Context.Plain (ctx : Context) (t : Tree) : Prop where
  selfType : ∀ ty, ctx.selfType = some ty → ty.plain t = true
  generics : ∀ g ∈ ctx.generics, (t.kind g).isGeneric = true

def State.Opens (s : State) (t : Tree) (opened : NodeId → Prop) (n : NodeId) : Prop :=
  ∀ b, (t.kind b).isBinding = true → t.Below b n → s.IsChecked b ∧ opened b

def State.Blank (s : State) (t : Tree) (n : NodeId) : Prop :=
  ∀ x, t.Below n x → (t.kind x).isExpr = true → s.references.get? x = none

def State.Fresh (s : State) (t : Tree) (n : NodeId) : Prop :=
  ∀ x, t.Below n x → (t.kind x).isExpr = true →
    (∀ b, (t.kind b).isBinding = true → ¬ t.Below b x) → s.references.get? x = none

/-- Is being worked out: a declaration that has been started, or a binding that has been opened. -/
def State.IsActive (s : State) (opened : NodeId → Prop) (a : NodeId) : Prop :=
  s.inProgress.get? a ≠ none ∨ opened a

def State.IsIdle (s : State) (opened : NodeId → Prop) : Prop := ∀ a, ¬ s.IsActive opened a

/-- All that is being worked out needs `d`. -/
def State.AllNeed (s : State) (t : Tree) (opened : NodeId → Prop) (d : NodeId) : Prop :=
  ∀ a, s.IsActive opened a → Relation.TransGen (t.Needs s.references) a d

/-- All that is being worked out is `d`, or needs it. -/
def State.Concerns (s : State) (t : Tree) (opened : NodeId → Prop) (d : NodeId) : Prop :=
  ∀ a, s.IsActive opened a → Relation.ReflTransGen (t.Needs s.references) a d

/-- All that is being worked out is a binding around the expression `n`, or needs it. -/
def State.ConcernsAround (s : State) (t : Tree) (opened : NodeId → Prop) (n : NodeId) : Prop :=
  ∀ a, s.IsActive opened a → ∃ b, (t.kind b).isBinding = true ∧ t.Below b n ∧
    Relation.ReflTransGen (t.Needs s.references) a b

structure Finished (t : Tree) (n : NodeId) (s : State) : Prop where
  guards : ∀ x, t.Below n x → s.Guards t x
  lawful : s.Clean → ∀ x, t.Below n x → (s.program t).Lawful x

def Job.Region (t : Tree) : Job → NodeId → Prop
  | decl d => t.Below d
  | typeExpr n _ => (· = n)
  | pattern p _ _ => t.Below p
  | stmt n _ => t.Below n
  | expr n _ => t.Below n
  | _ => nowhere

def Job.Ready (t : Tree) (opened : NodeId → Prop) (s : State) : Job → Prop
  | decl d => (t.kind d).isMember = true ∧ s.IsIdle opened ∧ s.Fresh t d
  | signature d => (t.kind d).isDeclaration = true ∧ s.AllNeed t opened d
  | typeAlias d => ∃ introducer x aliased, t.kind d = .typeAlias introducer x aliased
  | subject _ => True
  | typeExpr n ctx => (t.kind n).isType = true ∧ ctx.Plain t ∧
      (t.IsAscription n → s.Opens t opened n)
  | binding b ctx _ => (t.kind b).isBinding = true ∧ ctx.Plain t ∧ s.AllNeed t opened b
  | pattern p ty _ => (t.kind p).isPattern = true ∧ ty.proper t = true ∧
      (∃ b, (t.kind b).isBinding = true ∧ t.Below b p ∧ opened b) ∧
      ∀ v, t.Below p v → (t.kind v).isVar = true → s.Soft v ∧ s.Guards t v
  | stmt n ctx => (t.kind n).isStmt = true ∧ ctx.Plain t ∧ s.IsIdle opened ∧ s.Fresh t n
  | expr n ctx => (t.kind n).isExpr = true ∧ ctx.Plain t ∧ s.Opens t opened n ∧ s.Blank t n ∧
      s.ConcernsAround t opened n

def Job.Result (t : Tree) (a : Ty) (s : State) : Job → Prop
  | decl d => Finished t d s
  | signature d => (t.kind d).isDeclaration = true ∧ a.proper t = true ∧
      (a = .error ∨ s.types.get? d = some a) ∧
      ((t.kind d).isVar = false → s.inProgress.get? d = none → s.types.get? d = some a)
  | typeAlias d => (∃ introducer x aliased, t.kind d = .typeAlias introducer x aliased) ∧
      a.plain t = true ∧ (s.Clean → s.types.get? d = some a)
  | subject _ => a.plain t = true
  | typeExpr n _ => a.plain t = true ∧
      (t.IsAscription n → s.Guards t n ∧ s.types.get? n = some a)
  | binding b _ _ => s.IsChecked b
  | pattern p ty _ => t.Fits p ty → ∀ v c, t.Gives v c p ty → c ≠ .error → s.types.get? v = some c
  | stmt n ctx => (t.kind n).isStmt = true ∧ Finished t n s ∧
      (s.Clean → ∀ x, t.Below n x → (s.program t).Returns (ctx.returnType.getD .error) x)
  | expr n _ => (t.kind n).isExpr = true ∧ a.proper t = true ∧ s.types.get? n = some a ∧
      Finished t n s ∧ ∀ i, s.references.get? n ≠ some (.constructor i)

def Obeys (t : Tree) (run : Run) : Prop :=
  ∀ opened j s, Invariant t opened s → j.Ready t opened s →
    Ends (run j) s fun a s' => Moves t opened (j.Region t) s s' ∧ j.Result t a s'

section Active

variable {t : Tree} {opened region : NodeId → Prop} {s s' : State} {d n : NodeId}

theorem State.isActive_iff (h : Moves t opened region s s') (a : NodeId) :
    s'.IsActive opened a ↔ s.IsActive opened a := by
  rw [IsActive, IsActive, h.resumes.inProgress]

theorem State.IsIdle.later (hs : s.IsIdle opened) (h : Moves t opened region s s') :
    s'.IsIdle opened :=
  fun a ha => hs a ((isActive_iff h a).mp ha)

theorem State.IsIdle.allNeed (hs : s.IsIdle opened) : s.AllNeed t opened d :=
  fun a ha => absurd ha (hs a)

theorem State.IsIdle.concernsAround (hs : s.IsIdle opened) : s.ConcernsAround t opened n :=
  fun a ha => absurd ha (hs a)

theorem State.IsIdle.not_opened (hs : s.IsIdle opened) (b : NodeId) : ¬ opened b :=
  fun hb => hs b (.inr hb)

theorem State.IsIdle.get?_inProgress (hs : s.IsIdle opened) (d : NodeId) :
    s.inProgress.get? d = none := by
  by_contra hd
  exact hs d (.inl hd)

theorem State.AllNeed.later (hs : s.AllNeed t opened d) (h : Moves t opened region s s') :
    s'.AllNeed t opened d :=
  fun a ha => Relation.TransGen.mono h.effect.keeps _ _ (hs a ((isActive_iff h a).mp ha))

theorem State.Concerns.later (hs : s.Concerns t opened d) (h : Moves t opened region s s') :
    s'.Concerns t opened d :=
  fun a ha => Relation.ReflTransGen.mono h.effect.keeps _ _ (hs a ((isActive_iff h a).mp ha))

theorem State.ConcernsAround.later (hs : s.ConcernsAround t opened n)
    (h : Moves t opened region s s') : s'.ConcernsAround t opened n := by
  intro a ha
  obtain ⟨b, hb, hbelow, hab⟩ := hs a ((isActive_iff h a).mp ha)
  exact ⟨b, hb, hbelow, Relation.ReflTransGen.mono h.effect.keeps _ _ hab⟩

theorem State.ConcernsAround.below {x : NodeId} (hs : s.ConcernsAround t opened n)
    (hx : t.Below n x) : s.ConcernsAround t opened x := by
  intro a ha
  obtain ⟨b, hb, hbelow, hab⟩ := hs a ha
  exact ⟨b, hb, hbelow.trans hx, hab⟩

theorem State.Concerns.allNeed (hs : s.Concerns t opened n) (h : t.Needs s.references n d) :
    s.AllNeed t opened d :=
  fun a ha => .tail' (hs a ha) h

theorem State.ConcernsAround.allNeed (hs : s.ConcernsAround t opened n)
    (hn : (t.kind n).isExpr = true) (h : t.Mentions s.references n d) : s.AllNeed t opened d := by
  intro a ha
  obtain ⟨b, hb, hbelow, hab⟩ := hs a ha
  exact .tail' hab (.mention hb hbelow hn h)

/-- What is started next is concerned with itself. -/
theorem State.AllNeed.start (hs : s.AllNeed t opened d) :
    State.Concerns { s with inProgress := s.inProgress.insert d () } t opened d := by
  rintro a (ha | ha)
  · rw [Table.get?_insert] at ha
    split at ha
    · next heq => exact heq ▸ .refl
    · exact (hs a (.inl ha)).to_reflTransGen
  · exact (hs a (.inr ha)).to_reflTransGen

theorem State.AllNeed.opening (hs : s.AllNeed t opened d) :
    State.Concerns { s with checkedBindings := s.checkedBindings.insert d () } t
      (fun x => opened x ∨ x = d) d := by
  rintro a (ha | ha | rfl)
  · exact (hs a (.inl ha)).to_reflTransGen
  · exact (hs a (.inr ha)).to_reflTransGen
  · exact .refl

theorem State.Concerns.around (hs : s.Concerns t opened d) (hd : (t.kind d).isBinding = true)
    (hn : t.Below d n) : s.ConcernsAround t opened n :=
  fun a ha => ⟨d, hd, hn, hs a ha⟩

theorem State.AllNeed.isCircular (hs : s.AllNeed t opened d) (hd : s.IsActive opened d) :
    t.IsCircular s.references d :=
  hs d hd

end Active

section Later

variable {t : Tree} {opened region : NodeId → Prop} {s s' : State} {n : NodeId}
  (ht : t.WellFormed)

theorem State.Opens.guards (h : s.Opens t opened n) : s.Guards t n :=
  fun b hb hbelow => (h b hb hbelow).1

theorem State.Opens.later (h : s.Opens t opened n) (heffect : Effect t region s s') :
    s'.Opens t opened n :=
  fun b hb hbelow => ⟨heffect.checked b (h b hb hbelow).1, (h b hb hbelow).2⟩

theorem State.Fresh.later (h : s.Fresh t n) (heffect : Effect t region s s')
    (hout : ∀ x, ¬ (t.Below n x ∧ region x)) : s'.Fresh t n := by
  intro x hx hexpr hfree
  have hguard : s.Guards t x := fun b hb hbelow => absurd hbelow (hfree b hb)
  rw [heffect.references x (.inl hexpr) (fun hin => hout x ⟨hx, hin⟩) hguard]
  exact h x hx hexpr hfree

include ht

theorem State.Opens.below {x : NodeId} (h : s.Opens t opened n)
    (hn : (t.kind n).isExpr = true) (hx : t.Below n x) : s.Opens t opened x := by
  intro b hb hbelow
  rcases hx.linear ht hbelow with hnb | hbn
  · have hexpr := Tree.isExpr_of_below ht hn hnb
    cases hk : t.kind b <;> simp [hk, Kind.isBinding, Kind.isExpr] at hb hexpr
  · exact h b hb hbn

theorem State.Blank.later (h : s.Blank t n) (hopens : s.Opens t opened n)
    (hn : (t.kind n).isExpr = true) (heffect : Effect t region s s')
    (hout : ∀ x, ¬ (t.Below n x ∧ region x)) : s'.Blank t n := by
  intro x hx hexpr
  rw [heffect.references x (.inl hexpr) (fun hin => hout x ⟨hx, hin⟩)
    (hopens.below ht hn hx).guards]
  exact h x hx hexpr

theorem Finished.later (h : Finished t n s) (heffect : Effect t region s s')
    (hout : ∀ x, ¬ (t.Below n x ∧ region x)) : Finished t n s' where
  guards := fun x hx => (h.guards x hx).later heffect
  lawful := by
    intro hclean x hx
    refine (h.lawful (heffect.clean hclean) x hx).stable (heffect.settled ?_ ?_) ht heffect.keeps
    · exact fun y hy _ hin => hout y ⟨hx.trans hy, hin⟩
    · exact fun y hy _ => h.guards y (hx.trans hy)

theorem Job.Ready.later {j : Job} (h : j.Ready t opened s) (hmoves : Moves t opened region s s')
    (hout : ∀ x, ¬ (j.Region t x ∧ region x)) : j.Ready t opened s' := by
  have heffect := hmoves.effect
  cases j with
  | decl d =>
      obtain ⟨hd, hidle, hfresh⟩ := h
      exact ⟨hd, hidle.later hmoves, hfresh.later heffect hout⟩
  | signature d => exact ⟨h.1, h.2.later hmoves⟩
  | typeAlias d => exact h
  | subject ext => exact h
  | typeExpr n ctx =>
      obtain ⟨hn, hctx, hopens⟩ := h
      exact ⟨hn, hctx, fun ha => (hopens ha).later heffect⟩
  | binding b ctx inBody => exact ⟨h.1, h.2.1, h.2.2.later hmoves⟩
  | pattern p ty inBody =>
      obtain ⟨hp, hty, hopen, hvars⟩ := h
      refine ⟨hp, hty, hopen, fun v hbelow hv => ?_⟩
      obtain ⟨hsoft, hguard⟩ := hvars v hbelow hv
      exact ⟨heffect.soft v hv (fun hin => hout v ⟨hbelow, hin⟩) hguard hsoft,
        hguard.later heffect⟩
  | stmt n ctx =>
      obtain ⟨hn, hctx, hidle, hfresh⟩ := h
      exact ⟨hn, hctx, hidle.later hmoves, hfresh.later heffect hout⟩
  | expr n ctx =>
      obtain ⟨hn, hctx, hopens, hblank, haround⟩ := h
      exact ⟨hn, hctx, hopens.later heffect, hblank.later ht hopens hn heffect hout,
        haround.later hmoves⟩

theorem Job.Result.later {j : Job} {a : Ty} (h : j.Result t a s)
    (hmoves : Moves t opened region s s') (hout : ∀ x, ¬ (j.Region t x ∧ region x)) :
    j.Result t a s' := by
  have heffect := hmoves.effect
  cases j with
  | decl d => exact Finished.later ht h heffect hout
  | signature d =>
      obtain ⟨hd, hproper, htype, hidle⟩ := h
      refine ⟨hd, hproper, ?_, fun hvar hnone => ?_⟩
      · by_cases herror : a = .error
        · exact .inl herror
        · exact .inr (heffect.decls d a hd (htype.resolve_left herror) fun _ => herror)
      · rw [hmoves.resumes.inProgress] at hnone
        exact heffect.decls d a hd (hidle hvar hnone) (by simp [hvar])
  | typeAlias d =>
      obtain ⟨⟨introducer, x, aliased, hd⟩, hplain, htype⟩ := h
      refine ⟨⟨introducer, x, aliased, hd⟩, hplain, fun hclean => ?_⟩
      exact heffect.decls d a (by simp [hd, Kind.isDeclaration]) (htype (heffect.clean hclean))
        (by simp [hd, Kind.isVar])
  | subject ext => exact h
  | typeExpr n ctx =>
      obtain ⟨hplain, htype⟩ := h
      refine ⟨hplain, fun ha => ?_⟩
      obtain ⟨hguard, htype⟩ := htype ha
      refine ⟨hguard.later heffect, ?_⟩
      rw [heffect.types n (.inr ha) (fun hin => hout n ⟨rfl, hin⟩) hguard, htype]
  | binding b ctx inBody => exact heffect.checked b h
  | pattern p ty inBody =>
      intro hfits v c hgives herror
      exact heffect.decls v c (Kind.isDeclaration_of_isVar (Tree.isVar_of_gives ht hgives))
        (h hfits v c hgives herror) fun _ => herror
  | stmt n ctx =>
      obtain ⟨hn, hfinished, hreturns⟩ := h
      refine ⟨hn, hfinished.later ht heffect hout, fun hclean x hx => ?_⟩
      refine (hreturns (heffect.clean hclean) x hx).stable (heffect.settled (x := n) ?_ ?_) ht hx
      · exact fun y hy _ hin => hout y ⟨hy, hin⟩
      · exact fun y hy _ => hfinished.guards y hy
  | expr n ctx =>
      obtain ⟨hn, hproper, htype, hfinished, huncalled⟩ := h
      have hguard := hfinished.guards n (.refl n)
      refine ⟨hn, hproper, ?_, hfinished.later ht heffect hout, fun i => ?_⟩
      · rw [heffect.types n (.inl hn) (fun hin => hout n ⟨.refl n, hin⟩) hguard, htype]
      · rw [heffect.references n (.inl hn) (fun hin => hout n ⟨.refl n, hin⟩) hguard]
        exact huncalled i

end Later

section Lists

variable {t : Tree} {opened : NodeId → Prop} {run : Run} {s s' : State}

def Job.Apart (t : Tree) (j j' : Job) : Prop := ∀ x, ¬ (j.Region t x ∧ j'.Region t x)

theorem mapM_spec (ht : t.WellFormed) (hrun : Obeys t run) {js : List Job}
    (hapart : js.Pairwise (Job.Apart t)) (hinv : Invariant t opened s)
    (hready : ∀ j ∈ js, j.Ready t opened s) :
    Ends (js.mapM run) s fun as s' =>
      Moves t opened (fun x => ∃ j ∈ js, j.Region t x) s s' ∧
        List.Forall₂ (fun j a => j.Result t a s') js as := by
  induction js generalizing s with
  | nil => exact .pure ⟨.refl hinv, .nil⟩
  | cons j js ih =>
      rw [List.pairwise_cons] at hapart
      rw [List.mapM_cons]
      refine (hrun opened j s hinv (hready j (by simp))).bind ?_
      rintro a s₁ ⟨hmoves, hresult⟩
      have hready' : ∀ j' ∈ js, j'.Ready t opened s₁ := by
        intro j' hj'
        refine (hready j' (by simp [hj'])).later ht hmoves fun x hx => ?_
        exact hapart.1 j' hj' x ⟨hx.2, hx.1⟩
      refine (ih hapart.2 hmoves.invariant hready').bind ?_
      rintro as s₂ ⟨hmoves', hresults⟩
      refine .pure ⟨.trans (hmoves.widen fun x hx => ⟨j, by simp, hx⟩) (hmoves'.widen ?_), ?_⟩
      · rintro x ⟨j', hj', hx⟩
        exact ⟨j', by simp [hj'], hx⟩
      · refine .cons (hresult.later ht hmoves' ?_) hresults
        rintro x ⟨hx, j', hj', hx'⟩
        exact hapart.1 j' hj' x ⟨hx, hx'⟩

theorem exists_of_forall₂ {α β : Type} {R : α → β → Prop} {as : List α} {bs : List β}
    (h : List.Forall₂ R as bs) {a : α} (ha : a ∈ as) : ∃ b, R a b := by
  obtain ⟨i, rfl⟩ := List.mem_iff_get.mp ha
  exact ⟨_, h.get i.2 (h.length_eq ▸ i.2)⟩

theorem each_eq_mapM (js : List Job) : each run js = (do let _ ← js.mapM run) := by
  induction js with
  | nil => simp [each]
  | cons j js ih =>
      simp only [each, List.forM_eq_forM, List.forM_cons, List.mapM_cons, bind_assoc,
        pure_bind] at ih ⊢
      rw [ih]

theorem each_spec (ht : t.WellFormed) (hrun : Obeys t run) {js : List Job}
    (hapart : js.Pairwise (Job.Apart t)) (hinv : Invariant t opened s)
    (hready : ∀ j ∈ js, j.Ready t opened s) :
    Ends (each run js) s fun _ s' =>
      Moves t opened (fun x => ∃ j ∈ js, j.Region t x) s s' ∧ ∀ j ∈ js, ∃ a, j.Result t a s' := by
  rw [each_eq_mapM]
  refine (mapM_spec ht hrun hapart hinv hready).bind ?_
  rintro as s' ⟨hmoves, hresults⟩
  exact .pure ⟨hmoves, fun j hj => exists_of_forall₂ hresults hj⟩

theorem each_single_spec (ht : t.WellFormed) (hrun : Obeys t run) {j : Job}
    (hinv : Invariant t opened s) (hready : j.Ready t opened s) :
    Ends (each run [j]) s fun _ s' => Moves t opened (j.Region t) s s' ∧ ∃ a, j.Result t a s' := by
  refine (each_spec ht hrun (by simp) hinv (by simpa using hready)).mono ?_
  rintro - s' ⟨hmoves, hresults⟩
  exact ⟨hmoves.widen (by simp), hresults j (by simp)⟩

end Lists

end LanguageService.Check
