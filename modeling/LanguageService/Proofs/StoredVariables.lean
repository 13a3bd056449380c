import LanguageService.Proofs.MemberwiseParameters

/-!
The parameters of a memberwise initializer and the variables that are stored for its type are the
same in number, names and order, as a walk over the members also finds them, so that a parameter is
known by its place.
-/
namespace LanguageService

open Declarations (varsOf)

namespace Kind

theorem not_isType_of_isPattern {k : Kind} (h : k.isPattern = true) : ¬ k.isType = true := by
  cases k <;> simp_all [isPattern, isType]

theorem exists_of_isVar {k : Kind} (h : k.isVar = true) : ∃ x, k = .var x := by
  cases k <;> simp_all [isVar]

def signatureSorts : List (Kind → Bool) := [isGeneric, isParameter, isVariant]

theorem part_of_signature {k : Kind} {p : NodeId} (h : p ∈ k.signature) :
    ∃ f ∈ signatureSorts, (f, p) ∈ k.parts := by
  cases k with
  | method i x gs ps o vs =>
      simp only [signature, List.append_assoc, List.mem_append] at h
      rcases h with h | h | h <;> simp [signatureSorts, parts, h]
  | function i x gs ps o b =>
      simp only [signature, List.mem_append] at h
      rcases h with h | h <;> simp [signatureSorts, parts, h]
  | _ => simp_all [signature, signatureSorts, parts]

theorem signature_eq_nil {k : Kind} {f : Kind → Bool} (hf : f ∈ signatureSorts)
    (hk : f k = true) : k.signature = [] := by
  simp only [signatureSorts, List.mem_cons, List.not_mem_nil, or_false] at hf
  rcases hf with rfl | rfl | rfl <;>
    cases k <;> first | rfl | simp [isGeneric, isParameter, isVariant] at hk

end Kind

namespace Tree

variable {t : Tree} {p : NodeId} {vs : List NodeId} {xs ys : List String}

theorem AreNamed.unique (h : t.AreNamed vs xs) (h' : t.AreNamed vs ys) : xs = ys := by
  refine Relator.RightUnique.forall₂ (fun v x y hx hy => ?_) h h'
  obtain ⟨z, hz, rfl⟩ := hx
  obtain ⟨w, hw, rfl⟩ := hy
  cases hz.symm.trans hw
  rfl

theorem AreNamed.flatMap {is : List NodeId} {f : NodeId → List NodeId} {g : NodeId → List String}
    (h : ∀ i ∈ is, t.AreNamed (f i) (g i)) : t.AreNamed (is.flatMap f) (is.flatMap g) := by
  induction is with
  | nil => exact .nil
  | cons i is ih =>
      obtain ⟨hi, his⟩ := List.forall_mem_cons.mp h
      exact hi.append (ih his)

/-- The names of the variables that stand in a node, but not in its types; `fuel` bounds its
depth. -/
def walkNamesAt (t : Tree) : Nat → NodeId → List String
  | 0, _ => []
  | fuel + 1, n =>
      match t.kind n with
      | .var x => [x.text]
      | k => k.children.flatMap fun c =>
          if (t.kind c).isType then [] else t.walkNamesAt fuel c

def walkNames (t : Tree) (n : NodeId) : List String := t.walkNamesAt (t.size + 1) n

theorem walkNamesAt_named (ht : t.WellFormed)
    (hp : (t.kind p).isBindingPattern = true ∨ (t.kind p).isPattern = true) {fuel : Nat}
    (hfuel : p < fuel) : t.AreNamed (t.patternVars p) (t.walkNamesAt fuel p) := by
  induction p using Nat.strongRecOn generalizing fuel with
  | ind p ih =>
      obtain ⟨fuel, rfl⟩ := Nat.exists_eq_add_one.mpr (Nat.zero_lt_of_lt hfuel)
      have hlt {c : NodeId} (hc : c ∈ t.children p) : c < fuel :=
        Nat.lt_of_lt_of_le (ht.child_lt p c hc) (Nat.le_of_lt_succ hfuel)
      have hpattern {q : NodeId} (hq : q ∈ t.children p) (hk : (t.kind q).isPattern = true) :
          t.AreNamed (t.patternVars q)
            (if (t.kind q).isType then [] else t.walkNamesAt fuel q) := by
        rw [if_neg (Kind.not_isType_of_isPattern hk)]
        exact ih q (ht.child_lt p q hq) (.inr hk) (hlt hq)
      rw [patternVars_eq ht, walkNamesAt]
      cases hk : t.kind p with
      | bindingPattern i how sub a =>
          have hsub := ht.fits p (Kind.isPattern, sub) (by simp [hk, Kind.parts])
          have htypes : (a.toList.flatMap fun c =>
              if (t.kind c).isType then [] else t.walkNamesAt fuel c) = [] := by
            refine List.flatMap_eq_nil_iff.mpr fun c hc => if_pos ?_
            exact ht.fits p (Kind.isType, c) (by simp [hk, Kind.parts, Option.mem_toList.mp hc])
          simp only [Kind.children, List.flatMap_cons, htypes, List.append_nil]
          exact hpattern (by simp [children, hk, Kind.children]) hsub
      | namePattern v =>
          have hv : v ∈ t.children p := by simp [children, hk, Kind.children]
          obtain ⟨x, hx⟩ := Kind.exists_of_isVar
            (ht.fits p (Kind.isVar, v) (by simp [hk, Kind.parts]))
          obtain ⟨fuel, rfl⟩ := Nat.exists_eq_add_one.mpr (Nat.zero_lt_of_lt (hlt hv))
          simp only [Kind.children, List.flatMap_cons, List.flatMap_nil, List.append_nil, hx,
            Kind.isType, walkNamesAt]
          exact .cons ⟨x, hx, rfl⟩ .nil
      | tuplePattern es =>
          have hes {q : NodeId} (hq : q ∈ es) : q ∈ t.children p := by
            simpa [children, hk, Kind.children] using hq
          refine AreNamed.flatMap fun q hq => hpattern (hes hq) ?_
          exact ht.fits p (Kind.isPattern, q) (by simp [hk, Kind.parts, hq])
      | wildcard => exact .nil
      | _ => simp [hk, Kind.isBindingPattern, Kind.isPattern] at hp

def memberNames (t : Tree) (m : NodeId) : List String :=
  match t.kind m with
  | .binding p _ => t.walkNames p
  | _ => []

theorem memberNames_named (ht : t.WellFormed) (m : NodeId) :
    t.AreNamed (varsOf t m) (t.memberNames m) := by
  rw [varsOf, memberNames]
  cases hk : t.kind m with
  | binding p i =>
      have hp := ht.fits m (Kind.isBindingPattern, p) (by simp [hk, Kind.parts])
      have hchild : p ∈ t.children m := by simp [children, hk, Kind.children]
      have hlt : p < t.size := Nat.lt_trans (ht.child_lt m p hchild) (lt_size_of_child hchild)
      exact walkNamesAt_named ht (.inl hp) (Nat.lt_succ_of_lt hlt)
  | _ => exact .nil

end Tree

namespace Lowering

open Surface (Decl)

variable {l : Layout} {t : Tree}

def memberwiseFrom (members : List NodeId) : Lowering (Option NodeId) := fun t =>
  if members.any fun m => (t.kind m).isInit then (none, t)
  else
    (do
      let ps ← memberwiseParams (members.flatMap t.memberNames)
      return some (← insert (.init .synthesized ps none true) .synthesized)) t

theorem memberwise_eq_memberwiseFrom (ht : t.WellFormed) (ds : List Decl) :
    memberwise ds (decls l ds t).2 = memberwiseFrom (decls l ds t).1 (decls l ds t).2 := by
  have ht' := (decls_tracked continues_tracks l ds t t (.refl ht)).wellFormed
  have hlowered := (decls_lowered (l := l) ds t).2 _ (.refl _) ht'
  generalize (decls l ds t).1 = is, (decls l ds t).2 = t' at ht' hlowered
  have hnames : storedNames ds = is.flatMap t'.memberNames :=
    hlowered.named.unique (.flatMap fun i _ => Tree.memberNames_named ht' i)
  have hinits : declaresInit ds = is.any fun m => (t'.kind m).isInit := by
    rw [Bool.eq_iff_iff, ← hlowered.inits, List.any_eq_true]
  rw [memberwise, memberwiseFrom, hinits, hnames]
  split <;> rfl

end Lowering

namespace Declarations

variable {t : Tree} {ds : Declarations} {d : NodeId}

section Signatures

def Signed (t : Tree) (ds : Declarations) : Prop :=
  ∀ d, ds.parents.get? d ≠ none → ∀ p ∈ (t.kind d).signature, ds.parents.get? p ≠ none

theorem Signed.visit (ht : t.WellFormed) (h : Signed t ds) (v : Visit) :
    Signed t (visit t ds v) := by
  intro d hd p hp
  rw [get?_visit] at hd ⊢
  split
  · simp
  · next hpv =>
      split at hd
      · next hdv =>
          obtain ⟨f, hf, hpart⟩ := Kind.part_of_signature hdv
          simp [Kind.signature_eq_nil hf (ht.fits _ _ hpart)] at hp
      · split at hd
        · next hdv => exact absurd (hdv ▸ hp) hpv
        · split
          · simp
          · exact h d hd p hp

theorem signed_ofTree (ht : t.WellFormed) : Signed t (ofTree t) :=
  ofTree_induction (fun _ hd => absurd rfl hd) (fun _ v h => h.visit ht v) fun _ _ _ _ h => h

theorem Accounts.parent_of_signature {vs : List Visit} (haccounts : Accounts t vs (ofTree t))
    (h : t.Parsed) {n m p : NodeId} (hn : Reached t (ofTree t) n) (hm : m ∈ t.membersOf n)
    (hp : p ∈ (t.kind m).signature) : (ofTree t).parents.get? p = some m := by
  have hseen := signed_ofTree h.wellFormed m (by simp [haccounts.parent h hn hm]) p hp
  obtain ⟨q, hq⟩ := Option.ne_none_iff_exists'.mp hseen
  rw [hq, (haccounts.held p q hq).unique h.wellFormed (.inr hp)]

theorem storedFor_eq (h : t.Parsed) (hd : Reached t (ofTree t) d) {i : NodeId}
    (hi : i ∈ t.membersOf d) {introducer : Site} {ps : List NodeId} {body : Option NodeId}
    {memberwise : Bool} (hk : t.kind i = .init introducer ps body memberwise) {k p : Nat}
    (hp : ps[k]? = some p) :
    Check.storedFor ⟨t, ofTree t⟩ p = ((ofTree t).storedOf d)[k]? := by
  obtain ⟨vs, haccounts⟩ := exists_accounts h
  have hparams : (t.kind i).signature = ps := by rw [hk]; rfl
  have hparent := haccounts.parent_of_signature h hd hi (hparams ▸ List.mem_of_getElem? hp)
  have hnodup : ps.Nodup := by
    refine (h.wellFormed.children_nodup i).sublist ?_
    rw [Tree.children, hk, Kind.children]
    exact List.sublist_append_left _ _
  have hplace : ps.findIdx? (· == p) = some k := by
    obtain ⟨hlt, rfl⟩ := List.getElem?_eq_some_iff.mp hp
    refine List.findIdx?_eq_some_iff_getElem.mpr ⟨hlt, by simp, fun j hj => ?_⟩
    simpa using fun heq => Nat.ne_of_lt hj (hnodup.getElem_inj_iff.mp heq)
  simp [Check.storedFor, hparent, hk, haccounts.parent h hd hi, hplace]

end Signatures

/-- The parameter `p` stands for the stored variable `v`, and has its name. -/
def Represents (t : Tree) (p v : NodeId) : Prop :=
  (∃ y, t.kind v = .var y ∧ t.kind p = .parameter ⟨y.text, .synthesized⟩ none) ∧
    Check.storedFor ⟨t, ofTree t⟩ p = some v

theorem memberwise_represents (h : t.Parsed) (hd : Reached t (ofTree t) d) {introducer : Site}
    {x : Name} {gs ms : List NodeId} {i : NodeId}
    (hk : t.kind d = .product introducer x gs ms (some i)) :
    ∃ ps, t.kind i = .init .synthesized ps none true ∧
      List.Forall₂ (Represents t) ps ((ofTree t).storedOf d) := by
  obtain ⟨vs, haccounts⟩ := exists_accounts h
  obtain ⟨u, hu, hbelow⟩ := exists_unit_of_isProduct h (by rw [hk]; rfl)
  obtain ⟨-, ps, hi, hnamed⟩ := h.given hu hbelow _ _ _ _ _ hk
  have hstored : (ofTree t).storedOf d = ms.flatMap (varsOf t) := by
    rw [haccounts.storedOf_eq h hd (by rw [hk]; rfl), flatMap_varsOf_members h hk]
  rw [← hstored] at hnamed
  refine ⟨ps, hi, List.forall₂_iff_get.mpr ⟨hnamed.length_eq, fun k hp hv => ⟨?_, ?_⟩⟩⟩
  · exact hnamed.get hp hv
  · have hmember : i ∈ t.membersOf d := by simp [Tree.membersOf, hk]
    exact (storedFor_eq h hd hmember hi (List.getElem?_eq_getElem hp)).trans
      (List.getElem?_eq_getElem hv)

/-- The initializer of a product type has a parameter for each variable that is stored, of the same
name and in the same order, and so each variable is set through its own parameter. -/
theorem memberwise_names_stored (h : t.Parsed) (hd : Reached t (ofTree t) d)
    {introducer : Site} {x : Name} {gs ms : List NodeId} {memberwise : Option NodeId}
    (hk : t.kind d = .product introducer x gs ms memberwise) :
    (memberwise.isSome = true ↔ ∀ m ∈ ms, (t.kind m).isInit = false) ∧
    ∀ i, memberwise = some i → ∃ ps, t.kind i = .init .synthesized ps none true ∧
      ps.length = ((ofTree t).storedOf d).length ∧
      ∀ (k : Nat) (p v : NodeId), ps[k]? = some p → ((ofTree t).storedOf d)[k]? = some v →
        (∃ y, t.kind v = .var y ∧ t.kind p = .parameter ⟨y.text, .synthesized⟩ none) ∧
          Check.storedFor ⟨t, ofTree t⟩ p = some v := by
  obtain ⟨u, hu, hbelow⟩ := exists_unit_of_isProduct h (by rw [hk]; rfl)
  have hgiven := h.given hu hbelow _ _ _ _ _ hk
  cases memberwise with
  | none =>
      obtain ⟨m, hm, hinit⟩ := hgiven
      refine ⟨⟨fun hsome => (by cases hsome), fun hnone => ?_⟩, fun i hi => by cases hi⟩
      exact absurd (hnone m hm) (by simp [hinit])
  | some i =>
      obtain ⟨ps, hi, hstored⟩ := memberwise_represents h hd hk
      refine ⟨iff_of_true rfl hgiven.1, fun j hj => ?_⟩
      cases hj
      refine ⟨ps, hi, hstored.length_eq, fun k p v hp hv => ?_⟩
      obtain ⟨hkp, rfl⟩ := List.getElem?_eq_some_iff.mp hp
      obtain ⟨hkv, rfl⟩ := List.getElem?_eq_some_iff.mp hv
      exact hstored.get hkp hkv

/-- A document with a type whose variables stand in patterns within patterns, beside what is not
bound and next to types, and one that has an initializer. -/
def parcelDocument : File :=
  .document "file:///main.orca" "
    type Parcel \x7b
      var ((width, _), heavy): ((Int, Int), Bool)
      fun size() -> Int
      let (_, count) = (1, 2)
    \x7d
    namespace Inner \x7b
      type Letter \x7b
        let pages = 3
        init(n: Int) \x7b return \x7d
      \x7d
    \x7d"

def hasParcel (t : Tree) : Bool :=
  decide (t.modules = [43]) && decide (29 ∈ t.membersOf 43) && decide (41 ∈ t.membersOf 43) &&
    decide (40 ∈ t.membersOf 41) && decide ((ofTree t).storedOf 29 = [0, 4, 17]) &&
    match t.kind 41, t.kind 29, t.kind 40 with
    | .space _ _ _, .product _ _ _ ms (some 28), .product _ _ _ ms' none =>
        decide (ms = [13, 15, 24]) && decide (ms' = [34, 39])
    | _, _, _ => false

set_option maxRecDepth 4000 in
theorem parcelDocument_stored :
    ∃ t, Tree.parseModule .empty "main" [parcelDocument] = .ok t ∧
      (∃ ps, t.kind 28 = .init .synthesized ps none true ∧ ps.length = 3 ∧
        ∀ (k : Nat) (p v : NodeId), ps[k]? = some p → [0, 4, 17][k]? = some v →
          (∃ y, t.kind v = .var y ∧ t.kind p = .parameter ⟨y.text, .synthesized⟩ none) ∧
            Check.storedFor ⟨t, ofTree t⟩ p = some v) ∧
      ¬ ∀ m ∈ [34, 39], (t.kind m).isInit = false := by
  have hrun : (Tree.parseModule .empty "main" [parcelDocument]).toOption.any hasParcel = true := by
    rw [Tree.parseModule, Tree.parseUnits, Tree.parseUnit, Layout.ofFile_of_text parcelDocument rfl]
    decide +kernel
  cases hparse : Tree.parseModule .empty "main" [parcelDocument] with
  | error e =>
      rw [hparse] at hrun
      simp [Except.toOption] at hrun
  | ok t =>
      rw [hparse] at hrun
      simp only [Except.toOption, Option.any_some, hasParcel, Bool.and_eq_true,
        decide_eq_true_eq] at hrun
      obtain ⟨⟨⟨⟨⟨hmodules, hparcel⟩, hinner⟩, hletter⟩, hstored⟩, hkinds⟩ := hrun
      have h : t.Parsed := .module .empty hparse
      have hmain : Reached t (ofTree t) 43 := .module (by simp [hmodules])
      have hmember {n m : NodeId} (hn : Reached t (ofTree t) n) (hm : m ∈ t.membersOf n)
          (hopens : (t.opened? m).isSome = true) : Reached t (ofTree t) m := by
        obtain ⟨s, hs⟩ := Option.isSome_iff_exists.mp hopens
        exact .member hn hm (by rw [scopeOf_of_opened? hs]; rfl)
      split at hkinds
      · next hspace hproduct hclosed =>
          simp only [Bool.and_eq_true, decide_eq_true_eq] at hkinds
          obtain ⟨-, rfl⟩ := hkinds
          obtain ⟨-, hstores⟩ := memberwise_names_stored h
            (hmember hmain hparcel (by simp [Tree.opened?, hproduct])) hproduct
          obtain ⟨ps, hps, hlength, hnames⟩ := hstores 28 rfl
          rw [hstored] at hlength hnames
          have hreached := hmember (hmember hmain hinner (by simp [Tree.opened?, hspace])) hletter
            (by simp [Tree.opened?, hclosed])
          obtain ⟨hiff, -⟩ := memberwise_names_stored h hreached hclosed
          refine ⟨t, rfl, ⟨ps, hps, hlength, hnames⟩, fun hnone => ?_⟩
          exact Bool.false_ne_true (hiff.mpr hnone)
      · cases hkinds

end Declarations

end LanguageService
