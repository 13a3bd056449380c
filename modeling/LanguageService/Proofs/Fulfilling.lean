import LanguageService.Proofs.AliasJobs

/-!
What is worked out rests on what has been worked out for it: the types that are written in it have
been looked at, and the names of types refer to something, unless there is a complaint.
-/
namespace LanguageService

namespace Kind

def isAssociated : Kind → Bool
  | associated _ _ => true
  | _ => false

def isPlaceholder (k : Kind) : Bool := k.isGeneric || k.isAssociated || k.isTrait

def writtenTypes : Kind → List NodeId
  | tupleType es => es
  | parameter _ ascription => ascription.toList
  | function _ _ _ _ output _ => output.toList
  | method _ _ _ _ output _ => output.toList
  | subscript _ _ _ output _ => [output]
  | typeAlias _ _ aliased => [aliased]
  | _ => []

theorem writtenTypes_of_isExpr {k : Kind} (h : k.isExpr = true) : k.writtenTypes = [] := by
  cases k <;> first | rfl | cases h

end Kind

namespace Ty

mutual

def rooted (t : Tree) : Ty → Bool
  | parameter d => (t.kind d).isPlaceholder
  | tuple as => allRooted t as
  | function is o => allRooted t is && o.rooted t
  | metatype a => a.rooted t
  | _ => true

def allRooted (t : Tree) : List Ty → Bool
  | [] => true
  | a :: as => a.rooted t && allRooted t as

end

def isOpaque (t : Tree) : Ty → Bool
  | error => true
  | parameter d => (t.kind d).isGeneric || (t.kind d).isAssociated
  | _ => false

theorem allRooted_eq_all (t : Tree) (as : List Ty) : allRooted t as = as.all (rooted t) := by
  induction as with
  | nil => rfl
  | cons a as ih => rw [allRooted, ih, List.all_cons]

theorem rooted_ofElements {t : Tree} {as : List Ty} (h : ∀ a ∈ as, a.rooted t = true) :
    (ofElements as).rooted t = true := by
  cases as with
  | nil => rfl
  | cons a as =>
      rw [ofElements, rooted, allRooted_eq_all]
      simpa using h

theorem rooted_function {t : Tree} {is : List Ty} {o : Ty} :
    (function is o).rooted t = true ↔ (∀ a ∈ is, a.rooted t = true) ∧ o.rooted t = true := by
  rw [rooted, allRooted_eq_all, Bool.and_eq_true, List.all_eq_true]

end Ty

namespace Check

theorem isOpaque_of_ownerOf {t : Tree} {d : NodeId} (h : (Ty.parameter d).rooted t = true)
    (howner : ownerOf t (.parameter d) = none) : (Ty.parameter d).isOpaque t = true := by
  simp only [Ty.rooted, Kind.isPlaceholder, Bool.or_eq_true] at h
  rw [Ty.isOpaque, Bool.or_eq_true]
  refine h.resolve_right fun htrait => ?_
  cases hk : t.kind d <;> simp [hk, Kind.isTrait] at htrait
  simp [ownerOf, hk] at howner

structure Context.Rooted (t : Tree) (ctx : Context) : Prop where
  selfType : ∀ ty, ctx.selfType = some ty → ty.rooted t = true
  generics : ∀ g ∈ ctx.generics, (t.kind g).isGeneric = true

structure State.Fulfils (t : Tree) (s : State) (n : NodeId) : Prop where
  named : ∀ x, t.kind n = .nameType x →
    x.text = "Self" ∨ s.references.get? n ≠ none ∨ ¬ s.Clean
  written : ∀ m ∈ (t.kind n).writtenTypes, s.types.get? m ≠ none
  parameters : ∀ ps, (t.kind n).parameters? = some ps → ∀ p ∈ ps, s.Holds p
  qualified : ∀ d x, t.kind n = .name (some d) x →
    s.references.get? n ≠ none ∨ ¬ s.Clean ∨
      ∃ ty, s.types.get? d = some ty ∧ ty.isOpaque t = true

structure State.Answers (e : Env) (s : State) (n : NodeId) : Prop where
  typed : s.types.get? n ≠ none → s.Fulfils e.tree n
  subject : ∀ m, (e.tree.kind n).subject? = some m → e.decls.parents.get? n ≠ none →
    s.subjects.get? n ≠ none → s.types.get? m ≠ none
  ascription : ∀ p i introducer how sub a, e.tree.kind n = .binding p i →
    e.tree.kind p = .bindingPattern introducer how sub (some a) →
    s.IsChecked n → s.types.get? a ≠ none

structure State.Orderly (t : Tree) (s : State) : Prop where
  frames : ∀ f ∈ s.frames, ∀ q ∈ f, (t.kind q.2).hasSignature = true
  types : ∀ n ty, s.types.get? n = some ty → ty.rooted t = true
  subjects : ∀ d ty, s.subjects.get? d = some ty → ty.rooted t = true

structure Accrues (s s' : State) : Prop where
  clean : s'.Clean → s.Clean
  typed : ∀ n, s.types.get? n ≠ none → s'.types.get? n ≠ none
  referred : ∀ n, s.references.get? n ≠ none → s'.references.get? n ≠ none
  subjects : ∀ d, s.subjects.get? d ≠ none → s'.subjects.get? d ≠ none
  checked : ∀ b, s.IsChecked b → s'.IsChecked b
  holds : ∀ d, s.Holds d → s'.Holds d

/-- All that has been looked at still rests on what has been looked at, but for what is in
`region`. -/
structure Keeps (e : Env) (region : NodeId → Prop) (s s' : State) : Prop extends
    Accrues s s' where
  inProgress : ∀ d, s'.inProgress.get? d = s.inProgress.get? d
  orderly : s'.Orderly e.tree
  answers : ∀ n, ¬ region n → s.Answers e n → s'.Answers e n

section Keeping

variable {e : Env} {region region' : NodeId → Prop} {s s₁ s' : State} {n : NodeId}

theorem Accrues.of_eq (hclean : s'.Clean → s.Clean) (htypes : s'.types = s.types)
    (hreferences : s'.references = s.references) (hsubjects : s'.subjects = s.subjects)
    (hchecked : s'.checkedBindings = s.checkedBindings)
    (hprogress : ∀ d, s.inProgress.get? d ≠ none → s'.inProgress.get? d ≠ none) :
    Accrues s s' where
  clean := hclean
  typed := fun n => by rw [htypes]; exact id
  referred := fun n => by rw [hreferences]; exact id
  subjects := fun d => by rw [hsubjects]; exact id
  checked := fun b => by rw [State.IsChecked, State.IsChecked, hchecked]; exact id
  holds := fun d => by rw [State.Holds, State.Holds, htypes]; exact .imp_right (hprogress d)

theorem Accrues.trans (h : Accrues s s₁) (h' : Accrues s₁ s') : Accrues s s' where
  clean := h.clean ∘ h'.clean
  typed := fun n hn => h'.typed n (h.typed n hn)
  referred := fun n hn => h'.referred n (h.referred n hn)
  subjects := fun d hd => h'.subjects d (h.subjects d hd)
  checked := fun b hb => h'.checked b (h.checked b hb)
  holds := fun d hd => h'.holds d (h.holds d hd)

theorem State.Fulfils.later {t : Tree} (h : s.Fulfils t n) (haccrues : Accrues s s')
    (hdomain : ∀ d x, t.kind n = .name (some d) x → s'.types.get? d = s.types.get? d) :
    s'.Fulfils t n where
  named := fun x hx =>
    (h.named x hx).imp_right (.imp (haccrues.referred n) fun hdirty hclean =>
      hdirty (haccrues.clean hclean))
  written := fun m hm => haccrues.typed m (h.written m hm)
  parameters := fun ps hps p hp => haccrues.holds p (h.parameters ps hps p hp)
  qualified := by
    intro d x hk
    rw [hdomain d x hk]
    exact (h.qualified d x hk).imp (haccrues.referred n) (.imp_left fun hdirty hclean =>
      hdirty (haccrues.clean hclean))

theorem State.Answers.later (h : s.Answers e n) (haccrues : Accrues s s')
    (htyped : s'.types.get? n ≠ none → s.types.get? n ≠ none)
    (hsubject : s'.subjects.get? n ≠ none → s.subjects.get? n ≠ none)
    (hchecked : s'.IsChecked n → s.IsChecked n)
    (hdomain : ∀ d x, e.tree.kind n = .name (some d) x →
      s'.types.get? d = s.types.get? d) : s'.Answers e n where
  typed := fun hn => (h.typed (htyped hn)).later haccrues hdomain
  subject := fun m hm hparent hn => haccrues.typed m (h.subject m hm hparent (hsubject hn))
  ascription := fun p i introducer how sub a hb hp hn =>
    haccrues.typed a (h.ascription p i introducer how sub a hb hp (hchecked hn))

theorem Keeps.of_eq (hs : s.Orderly e.tree) (hclean : s'.Clean → s.Clean)
    (htypes : s'.types = s.types) (hreferences : s'.references = s.references)
    (hsubjects : s'.subjects = s.subjects) (hchecked : s'.checkedBindings = s.checkedBindings)
    (hprogress : s'.inProgress = s.inProgress)
    (hframes : ∀ f ∈ s'.frames, ∀ q ∈ f, (e.tree.kind q.2).hasSignature = true) :
    Keeps e region s s' where
  toAccrues := .of_eq hclean htypes hreferences hsubjects hchecked fun d => by
    rw [hprogress]
    exact id
  inProgress := fun d => by rw [hprogress]
  orderly := ⟨hframes, by rw [htypes]; exact hs.types, by rw [hsubjects]; exact hs.subjects⟩
  answers := fun n _ hn => hn.later
    (.of_eq hclean htypes hreferences hsubjects hchecked fun d => by rw [hprogress]; exact id)
    (by rw [htypes]; exact id) (by rw [hsubjects]; exact id)
    (by rw [State.IsChecked, State.IsChecked, hchecked]; exact id)
    fun d x _ => by rw [htypes]

theorem Keeps.refl (hs : s.Orderly e.tree) : Keeps e region s s :=
  .of_eq hs id rfl rfl rfl rfl rfl hs.frames

theorem Keeps.trans (h : Keeps e region s s₁) (h' : Keeps e region s₁ s') :
    Keeps e region s s' where
  toAccrues := h.toAccrues.trans h'.toAccrues
  inProgress := fun d => (h'.inProgress d).trans (h.inProgress d)
  orderly := h'.orderly
  answers := fun n hn hanswers => h'.answers n hn (h.answers n hn hanswers)

theorem Keeps.shrink (h : Keeps e region s s')
    (hsub : ∀ n, region n → region' n ∨ s'.Answers e n) : Keeps e region' s s' :=
  { h with
    answers := fun n hn hanswers => by
      by_cases hin : region n
      · exact (hsub n hin).resolve_left hn
      · exact h.answers n hin hanswers }

theorem Keeps.widen (h : Keeps e region s s') (hsub : ∀ n, region n → region' n) :
    Keeps e region' s s' :=
  h.shrink fun n hn => .inl (hsub n hn)

theorem Keeps.anywhere (h : Keeps e nowhere s s') : Keeps e region s s' :=
  h.widen fun _ hn => hn.elim

def Qualified (t : Tree) (n q : NodeId) : Prop := ∃ x, t.kind q = .name (some n) x

theorem Keeps.refer (hs : s.Orderly e.tree) (n : NodeId) (r : Reference) :
    Keeps e region s { s with references := s.references.insert n r } := by
  have haccrues : Accrues s { s with references := s.references.insert n r } := by
    refine ⟨id, fun _ => id, fun m hm => ?_, fun _ => id, fun _ => id, fun _ => id⟩
    rw [Table.get?_insert]
    split
    · simp
    · exact hm
  exact ⟨haccrues, fun _ => rfl, ⟨hs.frames, hs.types, hs.subjects⟩,
    fun m _ hm => hm.later haccrues id id id fun _ _ _ => rfl⟩

theorem State.Orderly.setType {t : Tree} {ty : Ty} (hs : s.Orderly t)
    (hty : ty.rooted t = true) :
    State.Orderly t { s with types := s.types.insert n ty } where
  frames := hs.frames
  types := by
    intro m ty' hm
    rw [Table.get?_insert] at hm
    split at hm
    · cases hm
      exact hty
    · exact hs.types m ty' hm
  subjects := hs.subjects

theorem Accrues.setType (n : NodeId) (ty : Ty) :
    Accrues s { s with types := s.types.insert n ty } := by
  have htyped (m : NodeId) (hm : s.types.get? m ≠ none) :
      (s.types.insert n ty).get? m ≠ none := by
    rw [Table.get?_insert]
    split
    · simp
    · exact hm
  exact ⟨id, htyped, fun _ => id, fun _ => id, fun _ => id, fun d => .imp_left (htyped d)⟩

theorem Keeps.setType {ty : Ty} (hs : s.Orderly e.tree) (hty : ty.rooted e.tree = true)
    (hn : s.Fulfils e.tree n) :
    Keeps e (Qualified e.tree n) s { s with types := s.types.insert n ty } where
  toAccrues := .setType n ty
  inProgress := fun _ => rfl
  orderly := hs.setType hty
  answers := by
    intro m hm hanswers
    have hne {d : NodeId} {x : Name} (hk : e.tree.kind m = .name (some d) x) : n ≠ d := by
      rintro rfl
      exact hm ⟨x, hk⟩
    have hdomain (d : NodeId) (x : Name) (hk : e.tree.kind m = .name (some d) x) :
        (s.types.insert n ty).get? d = s.types.get? d := by
      rw [Table.get?_insert, if_neg (hne hk)]
    by_cases heq : n = m
    · subst heq
      exact ⟨fun _ => hn.later (.setType n ty) hdomain, fun m hm hparent hseen =>
        (Accrues.setType n ty).typed m (hanswers.subject m hm hparent hseen),
        fun p i introducer how sub a hb hp hchecked => (Accrues.setType n ty).typed a
          (hanswers.ascription p i introducer how sub a hb hp hchecked)⟩
    · refine hanswers.later (.setType n ty) (fun htyped => ?_) id id hdomain
      rwa [Table.get?_insert, if_neg heq] at htyped

theorem not_qualified {t : Tree} (ht : t.WellFormed) (hn : (t.kind n).isExpr = false) {q : NodeId} :
    ¬ Qualified t n q := by
  rintro ⟨x, hk⟩
  have hexpr := ht.fits q (Kind.isExpr, n) (by simp [hk, Kind.parts])
  exact absurd hexpr (by simp [hn])

theorem Keeps.elsewhere (ht : e.tree.WellFormed) (hn : (e.tree.kind n).isExpr = false)
    (h : Keeps e (Qualified e.tree n) s s') : Keeps e nowhere s s' :=
  h.widen fun _ hq => not_qualified ht hn hq

end Keeping

/-- If `m` comes to a result from the state `s`, then it has kept what there was, and `Q` holds. -/
def Proceeds {α : Type} (e : Env) (m : CheckM α) (s : State) (Q : α → State → Prop) : Prop :=
  Ends m s fun a s' => Keeps e nowhere s s' ∧ Q a s'

namespace Proceeds

variable {α β : Type} {e : Env} {m : CheckM α} {f : α → CheckM β} {s : State}

theorem mono {Q Q' : α → State → Prop} (h : Proceeds e m s Q)
    (hQ : ∀ a s', Keeps e nowhere s s' → Q a s' → Q' a s') : Proceeds e m s Q' :=
  Ends.mono h fun a s' h => ⟨h.1, hQ a s' h.1 h.2⟩

theorem bind {R : α → State → Prop} {Q : β → State → Prop} (h : Proceeds e m s R)
    (hf : ∀ a s₁, Keeps e nowhere s s₁ → R a s₁ → Proceeds e (f a) s₁ Q) :
    Proceeds e (m >>= f) s Q :=
  Ends.bind h fun a s₁ h₁ => Ends.mono (hf a s₁ h₁.1 h₁.2) fun _ _ h₂ =>
    ⟨h₁.1.trans h₂.1, h₂.2⟩

theorem pure {Q : α → State → Prop} {a : α} (hs : s.Orderly e.tree) (h : Q a s) :
    Proceeds e (Pure.pure a) s Q :=
  Ends.pure ⟨.refl hs, h⟩

theorem get {Q : β → State → Prop} {f : State → CheckM β} (h : Proceeds e (f s) s Q) :
    Proceeds e (MonadState.get >>= f) s Q := h

theorem typeOf {Q : β → State → Prop} {n : NodeId} {f : Option Ty → CheckM β}
    (h : Proceeds e (f (s.types.get? n)) s Q) : Proceeds e (Check.typeOf n >>= f) s Q := h

theorem modify {Q : Unit → State → Prop} {f : State → State} (h : Keeps e nowhere s (f s))
    (hQ : Q () (f s)) : Proceeds e (modify f) s Q :=
  Ends.modify ⟨h, hQ⟩

theorem mapM {f : α → CheckM β} {P : α → State → Prop} {R : β → Prop}
    (hlast : ∀ a s s', Keeps e nowhere s s' → P a s → P a s') {as : List α}
    (hf : ∀ a ∈ as, ∀ s, s.Orderly e.tree → Proceeds e (f a) s fun b s' => R b ∧ P a s')
    (hs : s.Orderly e.tree) : Proceeds e (as.mapM f) s fun bs s' =>
      (∀ b ∈ bs, R b) ∧ ∀ a ∈ as, P a s' := by
  induction as generalizing s with
  | nil => exact .pure hs ⟨List.forall_mem_nil _, List.forall_mem_nil _⟩
  | cons a as ih =>
      rw [List.mapM_cons]
      refine (hf a (by simp) s hs).bind ?_
      rintro b s₁ hkeeps ⟨hb, ha⟩
      refine (ih (fun a ha => hf a (by simp [ha])) hkeeps.orderly).bind ?_
      rintro bs s₂ hkeeps₂ ⟨hbs, has⟩
      exact .pure hkeeps₂.orderly ⟨List.forall_mem_cons.mpr ⟨hb, hbs⟩,
        List.forall_mem_cons.mpr ⟨hlast a s₁ s₂ hkeeps₂ ha, has⟩⟩

end Proceeds

def Job.Fits (t : Tree) : Job → Prop
  | decl d => (t.kind d).isMember = true
  | signature d => (t.kind d).hasSignature = true
  | typeAlias d => (t.kind d).isTypeAlias = true
  | typeExpr n ctx => (t.kind n).isType = true ∧ ctx.Rooted t
  | binding b ctx _ => (t.kind b).isBinding = true ∧ ctx.Rooted t
  | pattern _ ty _ => ty.rooted t = true
  | stmt n ctx => (t.kind n).isStmt = true ∧ ctx.Rooted t
  | expr n ctx => (t.kind n).isExpr = true ∧ ctx.Rooted t
  | subject _ => True

structure State.Looks (t : Tree) (s : State) (n : NodeId) : Prop where
  holds : (t.kind n).hasParameters = true ∨ (t.kind n).isTypeAlias = true → s.Holds n
  subject : (t.kind n).waits = true → s.subjects.get? n ≠ none
  traits : ∀ introducer subject ts ms, t.kind n = .conformance introducer subject ts ms →
    ∀ m ∈ ts, s.types.get? m ≠ none
  checked : (t.kind n).isBinding = true → s.IsChecked n

theorem State.Looks.later {t : Tree} {s s' : State} {n : NodeId} (h : s.Looks t n)
    (haccrues : Accrues s s') : s'.Looks t n where
  holds := fun hn => haccrues.holds n (h.holds hn)
  subject := fun hn => haccrues.subjects n (h.subject hn)
  traits := fun introducer subject ts ms hk m hm =>
    haccrues.typed m (h.traits introducer subject ts ms hk m hm)
  checked := fun hn => haccrues.checked n (h.checked hn)

def Job.Done (t : Tree) (s : State) : Job → Prop
  | decl d => ∀ n, t.Below d n → s.Looks t n
  | signature d => s.Holds d
  | typeAlias d => s.Holds d
  | subject ext => (t.kind ext).waits = true → s.subjects.get? ext ≠ none
  | typeExpr n _ => s.types.get? n ≠ none
  | binding b _ _ => s.IsChecked b
  | pattern _ _ _ => True
  | stmt n _ => ∀ m, t.Below n m → s.Looks t m
  | expr _ _ => True

theorem Job.Done.later {t : Tree} {s s' : State} {j : Job} (h : j.Done t s)
    (haccrues : Accrues s s') : j.Done t s' := by
  cases j with
  | decl d => exact fun n hn => (h n hn).later haccrues
  | signature d => exact haccrues.holds d h
  | typeAlias d => exact haccrues.holds d h
  | subject ext => exact fun hext => haccrues.subjects ext (h hext)
  | typeExpr n ctx => exact haccrues.typed n h
  | binding b ctx inBody => exact haccrues.checked b h
  | pattern p ty inBody => trivial
  | stmt n ctx => exact fun m hm => (h m hm).later haccrues
  | expr n ctx => trivial

def Job.Unsettles (t : Tree) : Job → NodeId → Prop
  | expr n _ => Qualified t n
  | _ => nowhere

def Thorough (e : Env) (run : Run) : Prop :=
  ∀ j s, s.Orderly e.tree → j.Fits e.tree → Ends (run j) s fun a s' =>
    Keeps e (j.Unsettles e.tree) s s' ∧ a.rooted e.tree = true ∧ j.Done e.tree s' ∧
      ∀ n ctx, j = .expr n ctx → s'.types.get? n = some a

end Check

end LanguageService
