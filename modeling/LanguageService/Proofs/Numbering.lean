import LanguageService.Proofs.Lowered
import LanguageService.Tree.Walk
import Mathlib.Data.List.Range

/-!
Lowering numbers the nodes of a module in post-order: what it adds to a tree, listed by number, is
what a walk from the module down leaves, each node after all that is below it.
-/
namespace LanguageService

namespace Tree

inductive Postorder (t : Tree) : List NodeId → List NodeId → Prop
  | nil : Postorder t [] []
  | cons {i : NodeId} {is below rest : List NodeId} (hbelow : Postorder t (t.children i) below)
      (hrest : Postorder t is rest) : Postorder t (i :: is) (below ++ i :: rest)

namespace Postorder

variable {t t' : Tree} {is js l l' : List NodeId}

theorem append (h : t.Postorder is l) (h' : t.Postorder js l') :
    t.Postorder (is ++ js) (l ++ l') := by
  induction h with
  | nil => exact h'
  | cons hbelow _ _ ih =>
      rw [List.append_assoc, List.cons_append]
      exact .cons hbelow ih

theorem congr (h : t.Postorder is l) (heq : ∀ i ∈ l, t'.children i = t.children i) :
    t'.Postorder is l := by
  induction h with
  | nil => exact .nil
  | @cons i is below rest _ _ ihbelow ihrest =>
      refine .cons ?_ (ihrest fun j hj => heq j (by simp [hj]))
      rw [heq i (by simp)]
      exact ihbelow fun j hj => heq j (by simp [hj])

theorem mem (h : t.Postorder is l) {i : NodeId} (hi : i ∈ is) : i ∈ l := by
  induction h with
  | nil => exact hi
  | cons _ _ _ ihrest =>
      rcases List.mem_cons.mp hi with rfl | hi
      · simp
      · simp [ihrest hi]

theorem of_mem (h : t.Postorder is l) {i : NodeId} (hi : i ∈ l) :
    ∃ below, t.Postorder (t.children i) below ∧ below.length < l.length := by
  induction h with
  | nil => simp at hi
  | @cons j is below rest hbelow _ ihbelow ihrest =>
      rw [List.length_append, List.length_cons]
      rcases List.mem_append.mp hi with hi | hi
      · obtain ⟨b, hb, hlt⟩ := ihbelow hi
        exact ⟨b, hb, by omega⟩
      · rcases List.mem_cons.mp hi with rfl | hi
        · exact ⟨below, hbelow, by omega⟩
        · obtain ⟨b, hb, hlt⟩ := ihrest hi
          exact ⟨b, hb, by omega⟩

theorem child_sublist (h : t.Postorder is l) {i c : NodeId} (hi : i ∈ l)
    (hc : c ∈ t.children i) : [c, i].Sublist l := by
  induction h with
  | nil => simp at hi
  | @cons j is below rest hbelow _ ihbelow ihrest =>
      rcases List.mem_append.mp hi with hi | hi
      · exact (ihbelow hi).trans (List.sublist_append_left _ _)
      · rcases List.mem_cons.mp hi with rfl | hi
        · exact (List.singleton_sublist.mpr (hbelow.mem hc)).append
            (List.singleton_sublist.mpr List.mem_cons_self)
        · exact ((ihrest hi).trans (List.sublist_cons_self _ _)).trans
            (List.sublist_append_right _ _)

theorem perm_children (h : t.Postorder is l) : l.Perm (is ++ l.flatMap t.children) := by
  induction h with
  | nil => rfl
  | @cons i is below rest _ _ ihbelow ihrest =>
      refine List.perm_middle.trans (.cons i ?_)
      refine (ihbelow.append ihrest).trans (List.perm_iff_count.mpr fun a => ?_)
      simp only [List.flatMap_append, List.flatMap_cons, List.append_eq, List.count_append]
      omega

theorem flatMap_visitAt_perm (h : t.Postorder is l) {fuel : Nat} (hfuel : l.length ≤ fuel) :
    (is.flatMap (t.visitAt (fun _ => true) fuel)).Perm l := by
  induction h generalizing fuel with
  | nil => rfl
  | @cons i is below rest _ _ ihbelow ihrest =>
      rw [List.length_append, List.length_cons] at hfuel
      have hrest : (is.flatMap (t.visitAt (fun _ => true) fuel)).Perm rest := ihrest (by omega)
      obtain ⟨fuel, rfl⟩ : ∃ n, fuel = n + 1 := ⟨fuel - 1, by omega⟩
      rw [List.flatMap_cons, visitAt, if_pos rfl]
      exact (List.Perm.append (.cons i (ihbelow (by omega))) hrest).trans List.perm_middle.symm

theorem visitAt_succ (h : t.Postorder is l) (enter : NodeId → Bool) {fuel : Nat}
    (hfuel : l.length ≤ fuel) {i : NodeId} (hi : i ∈ is) :
    t.visitAt enter (fuel + 1) i = t.visitAt enter fuel i := by
  induction h generalizing fuel i with
  | nil => simp at hi
  | @cons j is below rest _ _ ihbelow ihrest =>
      rw [List.length_append, List.length_cons] at hfuel
      rcases List.mem_cons.mp hi with rfl | hi
      · obtain ⟨fuel, rfl⟩ : ∃ n, fuel = n + 1 := ⟨fuel - 1, by omega⟩
        have hbelow : (t.children i).flatMap (t.visitAt enter (fuel + 1)) =
            (t.children i).flatMap (t.visitAt enter fuel) :=
          List.flatMap_congr fun c hc => ihbelow (by omega) hc
        rw [visitAt, hbelow, visitAt]
      · exact ihrest (by omega) hi

end Postorder

structure Adds (t t' : Tree) (is : List NodeId) : Prop where
  size_le : t.size ≤ t'.size
  get?_eq : ∀ i < t.size, t'.get? i = t.get? i
  modules : t'.modules = t.modules
  postorder : t'.Postorder is (List.range' t.size (t'.size - t.size))

namespace Adds

variable {t t₁ t₂ : Tree} {is js : List NodeId}

theorem refl (t : Tree) : Adds t t [] where
  size_le := Nat.le_refl _
  get?_eq := fun _ _ => rfl
  modules := rfl
  postorder := by
    rw [Nat.sub_self]
    exact .nil

theorem trans (h : Adds t t₁ is) (h' : Adds t₁ t₂ js) : Adds t t₂ (is ++ js) where
  size_le := Nat.le_trans h.size_le h'.size_le
  get?_eq := fun i hi =>
    (h'.get?_eq i (Nat.lt_of_lt_of_le hi h.size_le)).trans (h.get?_eq i hi)
  modules := h'.modules.trans h.modules
  postorder := by
    have hfirst : t₂.Postorder is (List.range' t.size (t₁.size - t.size)) := by
      refine h.postorder.congr fun i hi => ?_
      have hle := h.size_le
      rw [List.mem_range'_1] at hi
      rw [children, kind, h'.get?_eq i (by omega), children, kind]
    have hrange : List.range' t.size (t₁.size - t.size) ++
        List.range' t₁.size (t₂.size - t₁.size) = List.range' t.size (t₂.size - t.size) := by
      have hle := h.size_le
      have hle' := h'.size_le
      have happend := List.range'_append_1 (s := t.size) (m := t₁.size - t.size)
        (n := t₂.size - t₁.size)
      rwa [Nat.add_sub_cancel' hle, show t₁.size - t.size + (t₂.size - t₁.size) =
        t₂.size - t.size by omega] at happend
    exact hrange ▸ hfirst.append h'.postorder

theorem insert {k : Kind} {s : Site} (h : Adds t t₁ k.children) :
    Adds t (t₁.insert k s).2 [(t₁.insert k s).1] where
  size_le := by
    rw [size_insert]
    exact Nat.le_succ_of_le h.size_le
  get?_eq := by
    intro i hi
    rw [get?_insert, if_neg (Nat.ne_of_lt (Nat.lt_of_lt_of_le hi h.size_le))]
    exact h.get?_eq i hi
  modules := by
    rw [← h.modules]
    cases t₁ <;> rfl
  postorder := by
    have hle := h.size_le
    have hbelow : (t₁.insert k s).2.Postorder ((t₁.insert k s).2.children t₁.size)
        (List.range' t.size (t₁.size - t.size)) := by
      rw [children_insert, if_pos rfl]
      refine h.postorder.congr fun i hi => ?_
      rw [List.mem_range'_1] at hi
      rw [children_insert, if_neg (by omega)]
    have hrange : List.range' t.size (t₁.size + 1 - t.size) =
        List.range' t.size (t₁.size - t.size) ++ [t₁.size] := by
      rw [Nat.succ_sub hle, List.range'_1_concat, Nat.add_sub_cancel' hle]
    rw [fst_insert, size_insert, hrange]
    exact .cons hbelow .nil

end Adds

end Tree

namespace Lowering

open LanguageService.Tree (Adds)

variable {α : Type}

def Numbers (m : Lowering α) (ps : List Part) (qs : α → List Part) : Prop :=
  ∀ t t₁, Adds t t₁ (ps.map (·.2)) → Adds t (m t₁).2 ((qs (m t₁).1).map (·.2))

theorem numbers_tracks : Tracks Numbers where
  pure := fun h _ _ ht => h ▸ ht
  bind := by
    intro α β m f ps qs rs hm hf t t₁ ht
    have htrans := ht.trans (hm t₁ t₁ (.refl t₁))
    rw [← List.map_append] at htrans
    exact hf _ t _ htrans
  andThen := fun hm hf t t₁ ht => hf _ t _ (hm t t₁ ht)
  insert := by
    rintro k s f ps rfl - t t₁ ht
    rw [Kind.parts_map_snd] at ht
    exact ht.insert

end Lowering

namespace Tree

theorem parseUnit_adds {t t₁ : Tree} {f : File} {u : NodeId}
    (h : t.parseUnit f = .ok (u, t₁)) : Adds t t₁ [u] := by
  simp only [parseUnit] at h
  split at h
  · next ds _ =>
      split at h
      · have hadds := Lowering.unit_tracked Lowering.numbers_tracks (Layout.ofFile f) ds t t
          (.refl t)
        rw [Except.ok.injEq] at h
        rwa [h] at hadds
      · cases h
  · cases h

theorem parseUnits_adds (files : List File) (t : Tree) :
    Adds t (t.parseUnits files).2.2 (t.parseUnits files).1 := by
  induction files generalizing t with
  | nil => exact .refl t
  | cons f fs ih =>
      rw [parseUnits]
      split
      · next u t₁ hunit => exact (parseUnit_adds hunit).trans (ih t₁)
      · exact ih t

theorem parseModule_adds {base t : Tree} {name : String} {files : List File}
    (h : parseModule base name files = .ok t) :
    ∃ t₁ m us, Adds (extending base) t₁ [m] ∧ t₁.kind m = .module name us ∧
      t = t₁.addModule m := by
  simp only [parseModule] at h
  split at h
  · rw [Except.ok.injEq] at h
    refine ⟨_, _, ((extending base).parseUnits files).1, (parseUnits_adds files _).insert, ?_,
      h.symm⟩
    rw [kind_insert, fst_insert, if_pos rfl]
  · cases h

/-- Over `base` the tree has the module `m` and what is below it, numbered in post-order, so that
its new nodes are a tree of their own and can be walked. -/
structure NumberedFrom (base t : Tree) (m : NodeId) : Prop where
  modules : t.modules = base.modules ++ [m]
  last : m + 1 = t.size
  inherited : ∀ i < base.size, t.get? i = base.get? i
  postorder : t.Postorder [m] (List.range' base.size (t.size - base.size))
  child : ∀ i, base.size ≤ i → ∀ c ∈ t.children i, base.size ≤ c ∧ c < i
  children_nodup : ∀ i, base.size ≤ i → (t.children i).Nodup
  root : ∀ p, base.size ≤ p → m ∉ t.children p
  parent : ∀ i, base.size ≤ i → i < m → ∃! p, base.size ≤ p ∧ i ∈ t.children p
  parent_of_closed : (∀ q, ∀ c ∈ base.children q, c < base.size) →
    ∀ i, base.size ≤ i → i < m → ∃! p, i ∈ t.children p
  preorder : (t.preorder m).Perm (List.range' base.size (t.size - base.size))
  visit : ∀ enter i, base.size ≤ i → i ≤ m →
    t.visit enter i = i :: if enter i then (t.children i).flatMap (t.visit enter) else []

section Interval

variable {t : Tree} {m b n : Nat} (h : t.Postorder [m] (List.range' b n))

include h

theorem Postorder.last_eq : m + 1 = b + n := by
  generalize hl : List.range' b n = l at h
  cases h with
  | cons hbelow hrest =>
      cases hrest
      have hlast : (List.range' b n).getLast? = some m := by rw [hl, List.getLast?_append]; rfl
      rw [List.getLast?_range'] at hlast
      split at hlast <;> simp at hlast
      omega

theorem Postorder.child_mem {i c : Nat} (hi : b ≤ i ∧ i < b + n) (hc : c ∈ t.children i) :
    b ≤ c ∧ c < i := by
  have hsub := h.child_sublist (List.mem_range'_1.mpr hi) hc
  have hmem : c ∈ List.range' b n := hsub.subset (by simp)
  have hlt := (List.pairwise_lt_range' (s := b) (n := n) 1).sublist hsub
  exact ⟨(List.mem_range'_1.mp hmem).1, by simpa using hlt⟩

theorem Postorder.nodup_children : (m :: (List.range' b n).flatMap t.children).Nodup :=
  h.perm_children.nodup_iff.mp (List.nodup_range' 1)

theorem Postorder.exists_parent {i : Nat} (hi : b ≤ i ∧ i < m) :
    ∃ p, (b ≤ p ∧ p < b + n) ∧ i ∈ t.children p := by
  have hlast := h.last_eq
  have hmem := h.perm_children.mem_iff.mp (List.mem_range'_1.mpr ⟨hi.1, by omega⟩)
  rcases List.mem_cons.mp hmem with rfl | hmem
  · omega
  · obtain ⟨p, hp, hi⟩ := List.mem_flatMap.mp hmem
    exact ⟨p, List.mem_range'_1.mp hp, hi⟩

theorem Postorder.parent_unique {i p q : Nat} (hp : b ≤ p ∧ p < b + n)
    (hq : b ≤ q ∧ q < b + n) (hip : i ∈ t.children p) (hiq : i ∈ t.children q) : p = q := by
  have hdisjoint := (List.nodup_flatMap.mp (List.nodup_cons.mp h.nodup_children).2).2
  have hsymm : Std.Symm (Function.onFun List.Disjoint t.children) :=
    ⟨fun _ _ hd _ hq hp => hd hp hq⟩
  by_contra hne
  exact hdisjoint.forall (List.mem_range'_1.mpr hp) (List.mem_range'_1.mpr hq) hne hip hiq

end Interval

theorem Postorder.numberedFrom {base t : Tree} {m : Nat}
    (h : t.Postorder [m] (List.range' base.size (t.size - base.size)))
    (hmodules : t.modules = base.modules ++ [m]) (hle : base.size ≤ t.size)
    (hinherited : ∀ i < base.size, t.get? i = base.get? i) : base.NumberedFrom t m := by
  have hlast := h.last_eq
  rw [Nat.add_sub_cancel' hle] at hlast
  have hin {i : Nat} (hnew : base.size ≤ i) (hi : i < t.size) :
      base.size ≤ i ∧ i < base.size + (t.size - base.size) := ⟨hnew, by omega⟩
  have hparent {i : Nat} (hnew : base.size ≤ i) (hi : i < m) :
      ∃! p, base.size ≤ p ∧ i ∈ t.children p := by
    obtain ⟨p, hp, hc⟩ := h.exists_parent ⟨hnew, hi⟩
    refine ⟨p, ⟨hp.1, hc⟩, fun q ⟨hq, hcq⟩ => ?_⟩
    exact h.parent_unique (hin hq (lt_size_of_child hcq)) hp hcq hc
  have hfuel {i : Nat} (hnew : base.size ≤ i) (hi : i < t.size) :
      ∃ below, t.Postorder (t.children i) below ∧ below.length ≤ t.size := by
    obtain ⟨below, hbelow, hlt⟩ := h.of_mem (List.mem_range'_1.mpr (hin hnew hi))
    rw [List.length_range'] at hlt
    exact ⟨below, hbelow, by omega⟩
  refine ⟨hmodules, hlast, hinherited, h, ?_, ?_, ?_, ?_, ?_, ?_, ?_⟩
  · intro i hnew c hc
    exact h.child_mem (hin hnew (lt_size_of_child hc)) hc
  · intro i hnew
    rcases Nat.lt_or_ge i t.size with hi | hi
    · have hnodup := (List.nodup_cons.mp h.nodup_children).2
      exact (List.nodup_flatMap.mp hnodup).1 i (List.mem_range'_1.mpr (hin hnew hi))
    · rw [children_of_size_le t hi]
      exact List.nodup_nil
  · intro p hp hc
    have hmem := List.mem_range'_1.mpr (hin hp (lt_size_of_child hc))
    exact (List.nodup_cons.mp h.nodup_children).1 (List.mem_flatMap.mpr ⟨p, hmem, hc⟩)
  · intro i hnew hi
    exact hparent hnew hi
  · intro hclosed i hnew hi
    obtain ⟨p, ⟨-, hc⟩, hunique⟩ := hparent hnew hi
    refine ⟨p, hc, fun q (hcq : i ∈ t.children q) => hunique q ⟨?_, hcq⟩⟩
    refine Nat.le_of_not_lt fun hq => ?_
    rw [children, kind, hinherited q hq] at hcq
    exact Nat.not_le.mpr (hclosed q i hcq) hnew
  · have hlength : (List.range' base.size (t.size - base.size)).length ≤ t.size + 1 := by
      rw [List.length_range']
      omega
    simpa [Tree.preorder, Tree.visit] using h.flatMap_visitAt_perm hlength
  · intro enter i hnew hi
    obtain ⟨below, hbelow, hlength⟩ := hfuel hnew (by omega)
    rw [Tree.visit, visitAt]
    congr 2
    exact List.flatMap_congr fun c hc => (hbelow.visitAt_succ enter hlength hc).symm

theorem parseModule_numberedFrom {base t : Tree} {name : String} {files : List File}
    (h : parseModule base name files = .ok t) :
    ∃ m us, t.kind m = .module name us ∧ base.NumberedFrom t m := by
  obtain ⟨t₁, m, us, hadds, hkind, rfl⟩ := parseModule_adds h
  have hget (i : NodeId) : (t₁.addModule m).get? i = t₁.get? i := by cases t₁ <;> rfl
  have hsize : (t₁.addModule m).size = t₁.size := by cases t₁ <;> rfl
  have hmodules : (t₁.addModule m).modules = t₁.modules ++ [m] := by cases t₁ <;> rfl
  have hbase : (extending base).size = base.size := by simp [extending, size]
  have hle := hadds.size_le
  have hpost : (t₁.addModule m).Postorder [m] _ :=
    hadds.postorder.congr fun i _ => by rw [children, kind, hget, children, kind]
  rw [hbase] at hle hpost
  rw [← hsize] at hpost
  refine ⟨m, us, ?_, hpost.numberedFrom (hmodules.trans ?_) (hsize ▸ hle) ?_⟩
  · rw [kind, hget, ← kind, hkind]
  · rw [hadds.modules]
    rfl
  · intro i hi
    rw [hget, hadds.get?_eq i (by rwa [hbase]), get?_extending]

/-- A document with a synthesized initializer, a binding with both a type and a value, and a method
of two variants. -/
def shelfDocument : File :=
  .document "file:///shelf.orca" "type Shelf<T> \x7b var (w, h): (Int, Int) = (1, 2) \x7d
extension Shelf \x7b fun fit(n: Int) \x7b let \x7b return w + n \x7d
inout \x7b if h < n \x7b h = n \x7d \x7d \x7d \x7d"

theorem shelfDocument_numberedFrom : ∃ base t m,
    parseModule .empty "library" [.document "file:///lib.orca" "let one: Int = 1"] = .ok base ∧
      parseModule base "main" [shelfDocument] = .ok t ∧ 0 < base.size ∧
      base.size + 30 < t.size ∧ base.NumberedFrom t m := by
  have hrun : (match parseModule .empty "library"
        [.document "file:///lib.orca" "let one: Int = 1"] with
      | .error _ => false
      | .ok base => match parseModule base "main" [shelfDocument] with
        | .error _ => false
        | .ok t => decide (0 < base.size ∧ base.size + 30 < t.size)) = true := by
    decide +kernel
  cases hbase : parseModule .empty "library"
      [.document "file:///lib.orca" "let one: Int = 1"] with
  | error e => simp [hbase] at hrun
  | ok base =>
      cases hparse : parseModule base "main" [shelfDocument] with
      | error e => simp [hbase, hparse] at hrun
      | ok t =>
          simp only [hbase, hparse, decide_eq_true_eq] at hrun
          obtain ⟨m, us, -, hm⟩ := parseModule_numberedFrom hparse
          exact ⟨base, t, m, rfl, hparse, hrun.1, hrun.2, hm⟩

end Tree

end LanguageService
