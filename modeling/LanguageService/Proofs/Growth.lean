import LanguageService.Proofs.CheckState
import LanguageService.Proofs.Owned
import Mathlib.Data.Finset.Card

/-!
What a check has worked out goes on to hold while it runs, and what names refer to is what they
mean. The weight of a job bounds how deep the jobs below it nest.
-/
namespace LanguageService

namespace DiagnosticSet

theorem site_beq_self (s : Site) : (s == s) = true := by
  change instBEqSite.beq s s = true
  simp [instBEqSite.beq, BEq.beq]

theorem contains_insert_self (ds : DiagnosticSet) {code : String} {site : Site} {m : String} :
    (ds.insert (.error code site m)).contains (.error code site m) = true := by
  have hself : (Diagnostic.error code site m == Diagnostic.error code site m) = true := by
    change instBEqDiagnostic.beq _ _ = true
    simp [instBEqDiagnostic.beq, Diagnostic.error, site_beq_self]
  rw [insert]
  split
  · assumption
  · simp [contains, hself]

theorem contains_insert {ds : DiagnosticSet} {d d' : Diagnostic} (h : ds.contains d' = true) :
    (ds.insert d).contains d' = true := by
  rw [insert]
  split
  · exact h
  · rw [contains] at h ⊢
    rw [List.any_append, h, Bool.true_or]

theorem mem_insert {ds : DiagnosticSet} {d d' : Diagnostic} (h : d' ∈ (ds.insert d).elements) :
    d' ∈ ds.elements ∨ d' = d := by
  rw [insert] at h
  split at h
  · exact .inl h
  · simpa using h

theorem mem_of_mem_extend {s : DiagnosticSet} {ds : List Diagnostic} {d : Diagnostic}
    (h : d ∈ (s.extend ds).elements) : d ∈ s.elements ∨ d ∈ ds := by
  induction ds generalizing s with
  | nil => exact .inl h
  | cons d' ds ih =>
      rcases ih h with h | h
      · rcases mem_insert h with h | rfl
        · exact .inl h
        · exact .inr List.mem_cons_self
      · exact .inr (List.mem_cons_of_mem d' h)

end DiagnosticSet

def Diagnostic.undefined (x : Name) : Diagnostic :=
  .error "E1001" x.site ("undefined name " ++ Check.Complaint.quoted x.text)

/-- A reference is what the name `n` means, or, if it is called, an initializer of the type that
this denotes. -/
def Program.Follows (p : Program) (n : NodeId) (m : Option Reference) (r : Reference) : Prop :=
  m = some r ∨ (∃ c args, p.tree.kind c = .call n args) ∧ ∃ i d ty, r = .constructor i ∧
    (m = some (.direct d) ∨ m = some (.member d)) ∧
    i ∈ (Declarations.ofTree p.tree).initializersOf ty ∧ p.HasValue d (.metatype (.product ty))

theorem Program.Follows.stable {p q : Program} {n : NodeId} {m : Option Reference} {r : Reference}
    (hpq : Program.Extends p q) (h : p.Follows n m r)
    (hm : ∀ d, m = some (.direct d) ∨ m = some (.member d) →
      (p.tree.kind d).isDeclaration = true) : q.Follows n m r := by
  rcases h with h | ⟨hcall, i, d, ty, rfl, hd, hi, hvalue⟩
  · exact .inl h
  · refine .inr ⟨?_, i, d, ty, rfl, hd, ?_, hvalue.stable hpq (hm d hd) nofun⟩
    · rwa [hpq.tree]
    · rwa [hpq.tree]

namespace Check

def Succeeds {α : Type} (m : CheckM α) (s : State) (Q : α → State → Prop) : Prop :=
  ∃ a s', m s = some (a, s') ∧ Q a s'

namespace Succeeds

variable {α β : Type} {m : CheckM α} {f : α → CheckM β} {s : State}

theorem mono {Q Q' : α → State → Prop} (h : Succeeds m s Q) (hQ : ∀ a s', Q a s' → Q' a s') :
    Succeeds m s Q' := by
  obtain ⟨a, s', hm, ha⟩ := h
  exact ⟨a, s', hm, hQ a s' ha⟩

theorem bind {R : α → State → Prop} {Q : β → State → Prop} (h : Succeeds m s R)
    (hf : ∀ a s₁, R a s₁ → Succeeds (f a) s₁ Q) : Succeeds (m >>= f) s Q := by
  obtain ⟨a, s₁, hm, ha⟩ := h
  obtain ⟨b, s', hfa, hb⟩ := hf a s₁ ha
  refine ⟨b, s', ?_, hb⟩
  change (m s).bind (fun p => f p.1 p.2) = _
  rw [hm]
  exact hfa

theorem pure {Q : α → State → Prop} {a : α} (h : Q a s) : Succeeds (Pure.pure a) s Q :=
  ⟨a, s, rfl, h⟩

theorem modify {Q : Unit → State → Prop} {f : State → State} (h : Q () (f s)) :
    Succeeds (modify f) s Q :=
  ⟨(), f s, rfl, h⟩

theorem get {Q : β → State → Prop} {f : State → CheckM β} (h : Succeeds (f s) s Q) :
    Succeeds (MonadState.get >>= f) s Q := h

theorem typeOf {Q : β → State → Prop} {n : NodeId} {f : Option Ty → CheckM β}
    (h : Succeeds (f (s.types.get? n)) s Q) : Succeeds (Check.typeOf n >>= f) s Q := h

end Succeeds

def State.Covers (s : State) (t : Tree) (n : NodeId) : Prop :=
  ∀ x, t.Below n x → (t.kind x).isExpr = true → s.types.get? x ≠ none

end Check

def Tree.IsLocal (t : Tree) (b : NodeId) : Prop := ∃ n, t.kind n = .decl b

namespace Check

def State.Untouched (s : State) (t : Tree) (n : NodeId) : Prop :=
  ∀ b, t.IsLocal b → t.Below n b → ¬ s.IsChecked b

/-- What has been worked out stays, and what is in progress is the same as before. Variables get
their types, and bindings among statements are checked, in `region` only. -/
structure Grows (t : Tree) (region : NodeId → Prop) (s s' : State) : Prop where
  clean : s'.Clean → s.Clean
  inProgress : ∀ d, s'.inProgress.get? d = s.inProgress.get? d
  checked : ∀ b, s.IsChecked b → s'.IsChecked b
  typed : ∀ x, s.types.get? x ≠ none → s'.types.get? x ≠ none
  referred : ∀ x, s.references.get? x ≠ none → s'.references.get? x ≠ none
  decls : ∀ d ty, (t.kind d).isDeclaration = true → s.types.get? d = some ty →
    ((t.kind d).isVar = true → ty ≠ .error) → s'.types.get? d = some ty
  busy : ∀ d, (t.kind d).isDeclaration = true → (t.kind d).isVar = false →
    s.inProgress.contains d = true → s'.types.get? d = s.types.get? d
  soft : ∀ v, (t.kind v).isVar = true → ¬ region v → s.Guards t v → s.Soft v → s'.Soft v
  covers : ∀ b, s'.IsChecked b → s.IsChecked b ∨ s'.Covers t b
  locals : ∀ b, t.IsLocal b → s'.IsChecked b → s.IsChecked b ∨ region b

section Growing

variable {t : Tree} {region region' : NodeId → Prop} {s s₁ s' : State}

theorem Grows.guards {x : NodeId} (h : Grows t region s s') (hx : s.Guards t x) :
    s'.Guards t x :=
  fun b hb hbelow => h.checked b (hx b hb hbelow)

theorem Grows.extends (h : Grows t region s s') :
    Program.Extends (s.program t) (s'.program t) :=
  ⟨rfl, h.decls⟩

theorem State.Covers.later {n : NodeId} (h : s.Covers t n) (hgrows : Grows t region s s') :
    s'.Covers t n :=
  fun x hx hexpr => hgrows.typed x (h x hx hexpr)

theorem State.Untouched.later {n : NodeId} (h : s.Untouched t n) (hgrows : Grows t region s s')
    (hout : ∀ x, ¬ (t.Below n x ∧ region x)) : s'.Untouched t n := by
  intro b hb hbelow hchecked
  rcases hgrows.locals b hb hchecked with hbefore | hin
  · exact h b hb hbelow hbefore
  · exact hout b ⟨hbelow, hin⟩

theorem Grows.of_eq (hclean : s'.Clean → s.Clean) (hprogress : s'.inProgress = s.inProgress)
    (hchecked : s'.checkedBindings = s.checkedBindings) (htypes : s'.types = s.types)
    (hreferences : s'.references = s.references) : Grows t region s s' where
  clean := hclean
  inProgress := fun d => by rw [hprogress]
  checked := fun b => by rw [State.IsChecked, State.IsChecked, hchecked]; exact id
  typed := fun x => by rw [htypes]; exact id
  referred := fun x => by rw [hreferences]; exact id
  decls := fun d ty _ h _ => by rw [htypes, h]
  busy := fun d _ _ _ => by rw [htypes]
  soft := fun v _ _ _ => by rw [State.Soft, State.Soft, htypes]; exact id
  covers := fun b h => .inl (by rwa [State.IsChecked, hchecked] at h)
  locals := fun b _ h => .inl (by rwa [State.IsChecked, hchecked] at h)

theorem Grows.refl (s : State) : Grows t region s s := .of_eq id rfl rfl rfl rfl

theorem Grows.trans (h : Grows t region s s₁) (h' : Grows t region s₁ s') :
    Grows t region s s' where
  clean := h.clean ∘ h'.clean
  inProgress := fun d => (h'.inProgress d).trans (h.inProgress d)
  checked := fun b hb => h'.checked b (h.checked b hb)
  typed := fun x hx => h'.typed x (h.typed x hx)
  referred := fun x hx => h'.referred x (h.referred x hx)
  decls := fun d ty hd hty hvar => h'.decls d ty hd (h.decls d ty hd hty hvar) hvar
  busy := by
    intro d hd hvar hbusy
    have hbusy' : s₁.inProgress.contains d = true := by rwa [Table.contains, h.inProgress d]
    rw [h'.busy d hd hvar hbusy', h.busy d hd hvar hbusy]
  soft := fun v hv hout hguard hsoft =>
    h'.soft v hv hout (h.guards hguard) (h.soft v hv hout hguard hsoft)
  covers := by
    intro b hb
    rcases h'.covers b hb with hb | hb
    · exact (h.covers b hb).imp_right (·.later h')
    · exact .inr hb
  locals := by
    intro b hlocal hb
    rcases h'.locals b hlocal hb with hb | hb
    · exact h.locals b hlocal hb
    · exact .inr hb

theorem Grows.widen (h : Grows t region s s') (hsub : ∀ x, region x → region' x) :
    Grows t region' s s' :=
  { h with
    soft := fun v hv hout => h.soft v hv fun hin => hout (hsub v hin)
    locals := fun b hlocal hb => (h.locals b hlocal hb).imp_right (hsub b) }

theorem Grows.setType {n : NodeId} {ty : Ty}
    (hdecl : ∀ old, (t.kind n).isDeclaration = true → s.types.get? n = some old →
      ((t.kind n).isVar = true → old ≠ .error) → ty = old)
    (hidle : (t.kind n).isDeclaration = true → (t.kind n).isVar = false →
      s.inProgress.contains n = false)
    (hsoft : (t.kind n).isVar = true → ¬ region n → s.Soft n → ty = .error) :
    Grows t region s { s with types := s.types.insert n ty } where
  clean := id
  inProgress := fun _ => rfl
  checked := fun _ => id
  typed := by
    intro x hx
    rw [Table.get?_insert]
    split
    · simp
    · exact hx
  referred := fun _ => id
  decls := by
    intro d old hd hold hvar
    rw [Table.get?_insert]
    split
    · next heq =>
        subst heq
        rw [hdecl old hd hold hvar]
    · exact hold
  busy := by
    intro d hd hvar hbusy
    rw [Table.get?_insert, if_neg]
    rintro rfl
    simp [hidle hd hvar] at hbusy
  soft := by
    intro v hv hout _ hsoft'
    by_cases heq : n = v
    · subst heq
      right
      rw [Table.get?_insert, if_pos rfl, hsoft hv hout hsoft']
    · simpa [State.Soft, heq] using hsoft'
  covers := fun _ => .inl
  locals := fun _ _ => .inl

theorem Grows.refer (n : NodeId) (r : Reference) :
    Grows t region s { s with references := s.references.insert n r } where
  clean := id
  inProgress := fun _ => rfl
  checked := fun _ => id
  typed := fun _ => id
  referred := by
    intro x hx
    rw [Table.get?_insert]
    split
    · simp
    · exact hx
  decls := fun _ _ _ h _ => h
  busy := fun _ _ _ _ => rfl
  soft := fun _ _ _ _ => id
  covers := fun _ => .inl
  locals := fun _ _ => .inl

end Growing

end Check

end LanguageService
