import LanguageService.Proofs.Adding
import LanguageService.Proofs.CheckState
import LanguageService.Proofs.Ending

/-!
The type under which an extension is filed while names are still being collected is the one that
its subject turns out to name when it is checked, unless this is an alias, or a name that an
extension declares meanwhile.
-/
namespace LanguageService

namespace Kind

def subject? : Kind → Option NodeId
  | extension _ n _ => some n
  | conformance _ n _ _ => some n
  | _ => none

theorem waits_of_subject? {k : Kind} {n : NodeId} (h : k.subject? = some n) : k.waits = true := by
  cases k <;> first | rfl | cases h

theorem members_sublist {k : Kind} (h : k.waits = true) : k.members.Sublist k.children := by
  cases k with
  | extension i n ms => simp [members, children]
  | conformance i n ts ms => simp [members, children]
  | _ => cases h

end Kind

def Tree.Introduces (t : Tree) (e : NodeId) (x : String) : Prop :=
  (t.kind e).waits = true ∧ ∃ m ∈ (t.kind e).members, t.Declares m x

namespace Declarations

def settle (t : Tree) (ds : Declarations) (ext : NodeId) (rest : List NodeId) : Declarations :=
  match (t.kind ext).subject? with
  | some n => collectExtension t { ds with pending := rest } ext n (t.kind ext).members
  | none => { ds with pending := rest }

variable {t : Tree} {ds ds' : Declarations} {ext n e : NodeId} {rest : List NodeId}

theorem collectPending_cons (hpending : ds.pending = e :: rest) (fuel : Nat) :
    collectPending t (fuel + 1) ds = collectPending t fuel (settle t ds e rest) := by
  rw [collectPending, hpending, settle]
  dsimp only
  cases t.kind e <;> rfl

theorem pending_of_collectPending? {fuel rounds : Nat}
    (h : collectPending? t fuel rounds ds = some ds') : ds'.pending = [] := by
  induction rounds generalizing ds with
  | zero => cases h
  | succ rounds ih =>
      rw [collectPending?] at h
      split at h
      · next hpending =>
          cases h
          exact hpending
      · dsimp only at h
        split at h
        · obtain ⟨ds₁, -, h⟩ := Option.bind_eq_some_iff.mp h
          exact ih h
        · obtain ⟨ds₁, -, h⟩ := Option.bind_eq_some_iff.mp h
          exact ih h
        · exact ih h

theorem pending_ofTree (ht : t.WellFormed) : (ofTree t).pending = [] := by
  have hcollected := ofTree?_eq ht (Nat.lt_succ_self t.size)
  rw [ofTree?] at hcollected
  obtain ⟨ds, -, hds⟩ := Option.bind_eq_some_iff.mp hcollected
  exact pending_of_collectPending? hds

structure Tracked (t : Tree) (ds : Declarations) : Prop where
  around : ∀ d p, ds.parents.get? d = some p → t.Below p d
  seen : ∀ e ∈ ds.entries, (t.kind e.decl).isVar = true ∨ ds.parents.get? e.decl ≠ none
  owners : ∀ ext ty, ds.extended.get? ext = some (.decl ty) → ds.parents.get? ty ≠ none

theorem tracked_empty : Tracked t .empty := by
  constructor <;> simp [empty]

theorem Tracked.adds {new : Entry → Prop} (h : Tracked t ds) (hadds : Adds t new ds ds') :
    Tracked t ds' where
  around := fun d p hp => (hadds.parents d p hp).elim (h.around d p) id
  seen := by
    obtain ⟨added, heq, hadded⟩ := hadds.entries
    intro e he
    rw [heq] at he
    rcases List.mem_append.mp he with he | he
    · exact (h.seen e he).imp_right (hadds.seen e.decl)
    · exact (hadded e he).2
  owners := fun ext ty hty => hadds.seen ty (h.owners ext ty (hadds.extended ▸ hty))

theorem exists_entry_of_mem_lookup {d : NodeId} {q : NodeId} {x : String}
    (h : d ∈ lookup t ds q x) : ∃ e ∈ ds.entries, e.decl = d := by
  rw [lookup] at h
  generalize hfind : List.findSome? _ (visible t ds q) = found at h
  cases found with
  | none => exact absurd h List.not_mem_nil
  | some found =>
      obtain ⟨s, _, hs⟩ := List.exists_of_findSome?_eq_some hfind
      split at hs
      · cases hs
      · cases hs
        exact ⟨⟨s, x, d⟩, mem_named.mp h, rfl⟩

theorem Tracked.subjectOwner (h : Tracked t ds) {ty : NodeId}
    (howner : subjectOwner t ds ext n = some (.decl ty)) : ds.parents.get? ty ≠ none := by
  rw [Declarations.subjectOwner] at howner
  split at howner
  · split at howner
    · cases howner
    · obtain ⟨q, -, hfind⟩ := Option.bind_eq_some_iff.mp howner
      obtain ⟨d, hd, hkind⟩ := List.exists_of_findSome?_eq_some hfind
      obtain ⟨e, he, rfl⟩ := exists_entry_of_mem_lookup hd
      split at hkind
      · next hk =>
          cases hkind
          exact (h.seen e he).resolve_left (by simp [hk, Kind.isVar])
      · next hk =>
          cases hkind
          exact (h.seen e he).resolve_left (by simp [hk, Kind.isVar])
      · cases hkind
  · cases howner

section Looking

variable {q c : NodeId} {x : String} {s : Scope}

theorem Tracked.below_of_mem_ancestors (h : Tracked t ds) (hc : c ∈ ds.ancestors q) :
    t.Below c q := by
  have hat (k : Nat) : ∀ d, c ∈ ds.ancestorsAt k d → t.Below c d := by
    induction k with
    | zero => simp [ancestorsAt]
    | succ k ih =>
        intro d hd
        rw [ancestorsAt] at hd
        split at hd
        · next p hp =>
            rcases List.mem_cons.mp hd with rfl | hd
            · exact .refl c
            · exact (ih p hd).trans (h.around d p hp)
        · rw [List.mem_singleton.mp hd]
          exact .refl d
  exact hat _ q hc

theorem Tracked.opened_of_visible (h : Tracked t ds) (hs : s ∈ visible t ds q) :
    (∃ place, s = .module place) ∨ ∃ d, t.Below d q ∧ scopeOf t ds d = some s := by
  rcases List.mem_append.mp hs with hs | hs
  · obtain ⟨d, hd, hs⟩ := List.mem_filterMap.mp hs
    exact .inr ⟨d, h.below_of_mem_ancestors hd, hs⟩
  · obtain ⟨m, -, rfl⟩ := List.mem_map.mp hs
    exact .inl ⟨m.2, rfl⟩

theorem eq_or_extended_of_scopeOf {d : NodeId} (hd : scopeOf t ds d = some s)
    (hs : s = .space c ∨ s = .type (.decl c)) : d = c ∨ ds.extended.get? d = some (.decl c) := by
  rw [scopeOf] at hd
  split at hd
  · cases hd
    exact .inl (by simpa using hs)
  · cases hd
    exact .inl (by simpa using hs)
  · cases hd
    exact .inl (by simpa using hs)
  · obtain ⟨o, ho, rfl⟩ := Option.map_eq_some_iff.mp hd
    exact .inr (by simpa [ho] using hs)
  · obtain ⟨o, ho, rfl⟩ := Option.map_eq_some_iff.mp hd
    exact .inr (by simpa [ho] using hs)
  · obtain ⟨place, -, rfl⟩ := Option.map_eq_some_iff.mp hd
    simp at hs
  · cases hd

theorem lookup_congr (h : Ready t ds) (h' : Ready t ds') (htracked : Tracked t ds)
    (hmodules : ds'.modules = ds.modules)
    (hparents : ∀ c, t.Below c q → ds'.parents.get? c = ds.parents.get? c)
    (hextended : ∀ c, t.Below c q → ds'.extended.get? c = ds.extended.get? c)
    (hnamed : ∀ s ∈ visible t ds q, ds'.named s x = ds.named s x) :
    lookup t ds' q x = lookup t ds q x := by
  have hchain (k : Nat) (d : NodeId) (hd : t.Below d q) :
      ds'.ancestors? k d = ds.ancestors? k d := by
    induction k generalizing d with
    | zero => rfl
    | succ k ih =>
        rw [ancestors?, ancestors?, hparents d hd]
        cases hp : ds.parents.get? d with
        | none => rfl
        | some p => simp only [ih p ((htracked.around d p hp).trans hd)]
  have hancestors : ds'.ancestors q = ds.ancestors q := by
    have hfuel := Nat.lt_succ_self t.size
    refine Option.some.inj ?_
    rw [← h'.ancestors_eq hfuel, ← h.ancestors_eq hfuel, hchain _ q (.refl q)]
  have hscopes : ∀ c ∈ ds.ancestors q, scopeOf t ds' c = scopeOf t ds c := by
    intro c hc
    rw [scopeOf, scopeOf, hextended c (htracked.below_of_mem_ancestors hc), hmodules]
  have hvisible : visible t ds' q = visible t ds q := by
    rw [visible, visible, hancestors, hmodules, List.filterMap_congr hscopes]
  rw [lookup, lookup, hvisible, ← List.head?_filterMap, ← List.head?_filterMap,
    List.filterMap_congr fun s hs => by rw [hnamed s hs]]

theorem subjectOwner_congr (ht : t.WellFormed) (h : Ready t ds) (h' : Ready t ds')
    (htracked : Tracked t ds) (hmodules : ds'.modules = ds.modules)
    (hparents : ∀ c, t.Below c ext → ds'.parents.get? c = ds.parents.get? c)
    (hextended : ∀ c, t.Below c ext → c ≠ ext → ds'.extended.get? c = ds.extended.get? c)
    (hnamed : ∀ x, t.kind n = .nameType x → ∀ q, t.Below q ext →
      ∀ s ∈ visible t ds q, ds'.named s x.text = ds.named s x.text) :
    subjectOwner t ds' ext n = subjectOwner t ds ext n := by
  rw [subjectOwner, subjectOwner, hparents ext (.refl ext)]
  split
  · next x hk =>
      split
      · rfl
      · cases hq : ds.parents.get? ext with
        | none => rfl
        | some q =>
            have hbelow := htracked.around ext q hq
            have hlt : ext < q := h.owned.parents ext q hq
            have hne {c : NodeId} (hc : t.Below c q) : c ≠ ext :=
              (Nat.lt_of_lt_of_le hlt (hc.le ht)).ne'
            have hlookup : lookup t ds' q x.text = lookup t ds q x.text :=
              lookup_congr h h' htracked hmodules
                (fun c hc => hparents c (hc.trans hbelow))
                (fun c hc => hextended c (hc.trans hbelow) (hne hc)) (hnamed x hk q hbelow)
            simp only [Option.bind_some, hlookup]
  · rfl

end Looking

section Settling

theorem subjectOwner_pop (ht : t.WellFormed) (h : Ready t ds) (htracked : Tracked t ds)
    (hpending : ds.pending = e :: rest) (ext n : NodeId) :
    subjectOwner t { ds with pending := rest } ext n = subjectOwner t ds ext n :=
  subjectOwner_congr ht h (h.pop hpending) htracked rfl (fun _ _ => rfl) (fun _ _ _ => rfl)
    fun _ _ _ _ _ _ => rfl

structure Settles (t : Tree) (ds : Declarations) (e : NodeId) (rest : List NodeId)
    (ds' : Declarations) : Prop where
  ready : Ready t ds'
  adds : Adds t (fun f => t.Introduces e f.name ∨ ∃ m ∈ t.children e, t.Opens m f.scope)
    { ds with pending := rest, extended := ds'.extended } ds'
  parents : ∀ c, (¬ ∃ m ∈ t.children e, t.Below m c) → ds'.parents.get? c = ds.parents.get? c
  extended : ∀ c, c ≠ e → ds'.extended.get? c = ds.extended.get? c
  filed : ds'.extended.get? e = (t.kind e).subject?.bind (subjectOwner t ds e)
  lists : ∀ o, ds'.extended.get? e = some o → ∀ m ∈ (t.kind e).members, Lists t ds' o m

variable (ht : t.WellFormed)

include ht

theorem adds_collect (o : Owner) (ds : Declarations) (hwaits : (t.kind e).waits = true) :
    Adds t (fun f => t.Introduces e f.name ∨ ∃ m ∈ t.children e, t.Opens m f.scope) ds
      (collect t e (.type o) ds (t.kind e).members) := by
  refine .foldl (fun ds m hm => ?_) ds
  have hchild : m ∈ t.children e := (Kind.members_sublist hwaits).subset hm
  refine (adds_collectAt ht _ (Tree.below_child hchild) ds).widen ?_
  rintro f (⟨-, hdeclares⟩ | hopens)
  · exact .inl ⟨hwaits, m, hm, hdeclares⟩
  · exact .inr ⟨m, hchild, hopens⟩

omit ht in
theorem settles_pop (h : Ready t ds) (hpending : ds.pending = e :: rest)
    (hnone : (t.kind e).subject?.bind (subjectOwner t ds e) = none) :
    Settles t ds e rest { ds with pending := rest } := by
  have hunfiled : ds.extended.get? e = none := h.filed.unfiled e (by simp [hpending])
  refine ⟨h.pop hpending, .refl _, fun _ _ => rfl, fun _ _ => rfl, hunfiled.trans hnone.symm, ?_⟩
  exact fun o ho => absurd (hunfiled.symm.trans ho) (by simp)

theorem settles_collect (h : Ready t ds) (hpending : ds.pending = e :: rest) {o : Owner}
    (hn : (t.kind e).subject? = some n) (howner : subjectOwner t ds e n = some o)
    {ds' : Declarations} (hready : Ready t ds')
    (heq : ds' = collect t e (.type o)
      { ds with pending := rest, extended := ds.extended.insert e o } (t.kind e).members) :
    Settles t ds e rest ds' := by
  have hwaits := Kind.waits_of_subject? hn
  have hms := Kind.members_sublist hwaits
  have hmembers := h.filed.collectMembers ht hpending rfl hms o
  have hadds := adds_collect ht o
    { ds with pending := rest, extended := ds.extended.insert e o } hwaits
  rw [← heq] at hmembers hadds
  have hfiled : ds'.extended.get? e = some o := by simp [hmembers.extended]
  refine ⟨hready, hadds.extended ▸ hadds, fun c hc => ?_, fun c hc => ?_, ?_, fun o' ho' m hm => ?_⟩
  · refine hmembers.parents c ?_
    rintro ⟨m, hm, hbelow⟩
    exact hc ⟨m, hms.subset hm, hbelow⟩
  · rw [hmembers.extended, Table.get?_insert, if_neg (Ne.symm hc)]
  · rw [hfiled, hn, Option.bind_some, howner]
  · obtain rfl := Option.some.inj (hfiled.symm.trans ho')
    rw [heq]
    exact lists_collect ht (fun m hm => Tree.below_child (hms.subset hm)) hm _

theorem settles (h : Ready t ds) (htracked : Tracked t ds) (hpending : ds.pending = e :: rest) :
    Settles t ds e rest (settle t ds e rest) := by
  rw [settle]
  cases hn : (t.kind e).subject? with
  | none => exact settles_pop h hpending (by simp [hn])
  | some n =>
      have hms := Kind.members_sublist (Kind.waits_of_subject? hn)
      have hready : Ready t
          (collectExtension t { ds with pending := rest } e n (t.kind e).members) :=
        h.collectExtension ht hpending rfl hms fun m hm => Kind.part_of_members hm
      have hpop := subjectOwner_pop ht h htracked hpending e n
      dsimp only
      rw [collectExtension, hpop] at hready ⊢
      cases howner : subjectOwner t ds e n with
      | none => exact settles_pop h hpending (by simp [hn, howner])
      | some o =>
          rw [howner] at hready
          exact settles_collect ht h hpending hn howner hready rfl

end Settling

section Settled

theorem Filed.not_within (h : Filed t ds) (he : e ∈ ds.pending)
    (hseen : ds.parents.get? ext ≠ none) (hne : e ≠ ext) : ¬ t.Below e ext := by
  intro hbelow
  rcases Tree.below_iff.mp hbelow with rfl | ⟨c, hc, hbelow⟩
  · exact hne rfl
  · exact hseen (h.unseen e he c hc ext hbelow)

def Early (t : Tree) (ext n : NodeId) : Prop :=
  ∀ x e, t.kind n = .nameType x → t.Introduces e x.text → t.Below e ext ∧ e ≠ ext

structure Extends (t : Tree) (ds : Declarations) (ext n : NodeId) : Prop where
  filed : ds.extended.get? ext = subjectOwner t ds ext n
  lists : ∀ o, ds.extended.get? ext = some o → ∀ m ∈ (t.kind ext).members, Lists t ds o m

theorem Tracked.settles (htracked : Tracked t ds) (h : Settles t ds e rest ds') :
    Tracked t ds' := by
  have hfiled : Tracked t { ds with pending := rest, extended := ds'.extended } := by
    refine ⟨htracked.around, htracked.seen, fun ext ty hty => ?_⟩
    by_cases hext : ext = e
    · subst hext
      obtain ⟨n, -, howner⟩ := Option.bind_eq_some_iff.mp (h.filed.symm.trans hty)
      exact htracked.subjectOwner howner
    · exact htracked.owners ext ty ((h.extended ext hext).symm.trans hty)
  exact hfiled.adds h.adds

theorem Settles.subjectOwner_eq (ht : t.WellFormed) (hready : Ready t ds) (htracked : Tracked t ds)
    (hpending : ds.pending = e :: rest) (h : Settles t ds e rest ds')
    (hseen : ds.parents.get? ext ≠ none) (hearly : Early t ext n) :
    subjectOwner t ds' ext n = subjectOwner t ds ext n := by
  have he : e ∈ ds.pending := by simp [hpending]
  have hinner {c m : NodeId} (hm : m ∈ t.children e) (hc : t.Below m c) : ¬ t.Below c ext := by
    intro hbelow
    exact hseen (hready.filed.unseen e he m hm ext (hc.trans hbelow))
  have hparents {c : NodeId} (hc : t.Below c ext) : ds'.parents.get? c = ds.parents.get? c := by
    refine h.parents c ?_
    rintro ⟨m, hm, hmc⟩
    exact hinner hm hmc hc
  refine subjectOwner_congr ht hready h.ready htracked h.adds.modules (fun c => hparents)
    (fun c hc hne => h.extended c ?_) fun x hx q hq s hs => ?_
  · rintro rfl
    exact hready.filed.not_within he hseen hne hc
  · refine h.adds.named_eq fun f hf ⟨hscope, hname⟩ => ?_
    rcases hf with hintroduces | ⟨m, hm, c, hmc, hopens⟩
    · obtain ⟨hbelow, hne⟩ := hearly x e hx (hname ▸ hintroduces)
      exact hready.filed.not_within he hseen hne hbelow
    -- What is opened inside is not around, and extensions around do not extend it.
    · rcases htracked.opened_of_visible hs with ⟨place, hplace⟩ | ⟨d, hd, hopened⟩
      · simp [hscope, hplace] at hopens
      · rcases eq_or_extended_of_scopeOf hopened (hscope ▸ hopens) with rfl | hextended
        · exact hinner hm hmc (hd.trans hq)
        · exact htracked.owners d c hextended (hready.filed.unseen e he m hm c hmc)

theorem Settles.extends (ht : t.WellFormed) (hready : Ready t ds) (htracked : Tracked t ds)
    (hpending : ds.pending = e :: rest) (h : Settles t ds e rest ds')
    (hn : (t.kind ext).subject? = some n) (hearly : Early t ext n)
    (hextends : ds.parents.get? ext ≠ none → ext ∈ ds.pending ∨ Extends t ds ext n)
    (hseen' : ds'.parents.get? ext ≠ none) : ext ∈ ds'.pending ∨ Extends t ds' ext n := by
  rcases h.adds.waits ext (Kind.waits_of_subject? hn) hseen' with hseen | hwaiting
  · have howner := h.subjectOwner_eq ht hready htracked hpending hseen hearly
    by_cases hext : ext = e
    · subst hext
      refine .inr ⟨?_, h.lists⟩
      rw [h.filed, hn, Option.bind_some, howner]
    · rcases hextends hseen with hwaiting | hextends
      · rw [hpending, List.mem_cons] at hwaiting
        exact .inl (h.adds.pending.subset (hwaiting.resolve_left hext))
      · have hsame := h.extended ext hext
        refine .inr ⟨by rw [hsame, howner, hextends.filed], fun o ho m hm => h.adds.lists ?_⟩
        have hlisted := hextends.lists o (hsame.symm.trans ho) m hm
        exact ⟨hlisted.names, hlisted.initializer, hlisted.subscript⟩
  · exact .inl hwaiting

variable (ht : t.WellFormed)

include ht

theorem collectPending_extends (h : Ready t ds) (htracked : Tracked t ds)
    (hn : (t.kind ext).subject? = some n) (hearly : Early t ext n)
    (hextends : ds.parents.get? ext ≠ none → ext ∈ ds.pending ∨ Extends t ds ext n) (fuel : Nat)
    (hseen : (collectPending t fuel ds).parents.get? ext ≠ none) :
    ext ∈ (collectPending t fuel ds).pending ∨ Extends t (collectPending t fuel ds) ext n := by
  induction fuel generalizing ds with
  | zero => exact hextends hseen
  | succ fuel ih =>
      cases hpending : ds.pending with
      | nil =>
          have hsame : collectPending t (fuel + 1) ds = ds := by rw [collectPending, hpending]
          rw [hsame] at hseen ⊢
          exact hextends hseen
      | cons e rest =>
          rw [collectPending_cons hpending] at hseen ⊢
          have hsettles := settles ht h htracked hpending
          exact ih hsettles.ready (htracked.settles hsettles)
            (hsettles.extends ht h htracked hpending hn hearly hextends) hseen

structure Gathers (t : Tree) (ds : Declarations) : Prop extends Tracked t ds where
  waits : ∀ d, (t.kind d).waits = true → ds.parents.get? d ≠ none → d ∈ ds.pending
  unfiled : ∀ d, ds.extended.get? d = none

theorem Gathers.collectModule (h : Gathers t ds) {m : NodeId} :
    Gathers t (collectModule t ds m) := by
  rw [Declarations.collectModule]
  split
  · next us hk =>
      have hadds : Adds t (fun _ => True) ds
          (collect t m (.module ds.modules.length) ds (us.flatMap (declsOfUnit t))) := by
        refine .foldl (fun ds d hd => ?_) ds
        obtain ⟨u, hu, hd⟩ := List.mem_flatMap.mp hd
        have hbelow : t.Below m d := by
          refine .of_child ?_ (Tree.below_child (child_of_declsOfUnit hd))
          rwa [Tree.children, hk, Kind.children]
        exact (adds_collectAt ht _ hbelow ds).widen fun _ _ => trivial
      have htracked := h.toTracked.adds hadds
      refine ⟨⟨htracked.around, htracked.seen, htracked.owners⟩, fun d hd hseen => ?_, fun d => ?_⟩
      · rcases hadds.waits d hd hseen with hseen | hwaiting
        · exact hadds.pending.subset (h.waits d hd hseen)
        · exact hwaiting
      · exact (congrArg (·.get? d) hadds.extended).trans (h.unfiled d)
  · exact h

theorem gathers_modules : Gathers t (t.modules.foldl (collectModule t) empty) :=
  List.foldlRecOn t.modules _ ⟨tracked_empty, by simp [empty], by simp [empty]⟩
    fun _ h m _ => h.collectModule ht

theorem extends_ofTree (hn : (t.kind ext).subject? = some n) (hearly : Early t ext n)
    (hseen : (ofTree t).parents.get? ext ≠ none) : Extends t (ofTree t) ext n := by
  have hgathers := gathers_modules ht
  have hextends := collectPending_extends ht (ready_modules ht) hgathers.toTracked hn hearly
    (fun hseen => .inl (hgathers.waits ext (Kind.waits_of_subject? hn) hseen)) _ hseen
  have hnone : ext ∉ (ofTree t).pending := by simp [pending_ofTree ht]
  exact hextends.resolve_left hnone

end Settled

end Declarations

end LanguageService
