import LanguageService.Proofs.Lowered
import Mathlib.Algebra.Group.Nat.Defs

/-!
A tree in layers is one list of nodes. Nodes are read through the layers by the number of nodes
below each of them, and whatever is added later, to a tree or to one laid over it, a tree that was
there is read as before.
-/
namespace LanguageService

namespace Tree

variable {t t₁ t' base : Tree} {i : NodeId}

def nodes : Tree → List Node
  | root ns _ => ns.toList
  | layer base ns _ => base.nodes ++ ns.toList

def base? : Tree → Option Tree
  | root _ _ => none
  | layer base _ _ => some base

theorem length_nodes (t : Tree) : t.nodes.length = t.size := by
  induction t with
  | root ns ms => rfl
  | layer base ns ms ih => rw [nodes, List.length_append, ih, size, Array.length_toList]

theorem get?_eq_getElem? (t : Tree) (i : NodeId) : t.get? i = t.nodes[i]? := by
  induction t with
  | root ns ms => rw [get?, nodes, Array.getElem?_toList]
  | layer base ns ms ih =>
      rw [get?, nodes]
      split
      · next hi => rw [List.getElem?_append_left (by rwa [length_nodes]), ih]
      · next hi =>
          have hle : base.nodes.length ≤ i := (length_nodes base).symm ▸ Nat.le_of_not_lt hi
          rw [List.getElem?_append_right hle, length_nodes, Array.getElem?_toList]

theorem isInherited_iff :
    t.isInherited i ↔ ∃ base, t.base? = some base ∧ i < base.nodes.length := by
  rw [isInherited, decide_eq_true_iff]
  cases t with
  | root ns ms => simp [inheritedSize, base?]
  | layer base ns ms => simp [inheritedSize, base?, length_nodes]

theorem nodes_extending (base : Tree) : (extending base).nodes = base.nodes := by
  simp [extending, nodes]

theorem nodes_insert (t : Tree) (k : Kind) (s : Site) :
    (t.insert k s).2.nodes = t.nodes ++ [⟨k, s⟩] := by
  cases t <;> simp [insert, nodes]

theorem nodes_addModule (t : Tree) (m : NodeId) : (t.addModule m).nodes = t.nodes := by
  cases t <;> rfl

end Tree

structure Layer where
  offset : Nat
  nodes : Array Node
  modules : List NodeId

abbrev Layers := List Layer

namespace Layers

def size : Layers → Nat
  | [] => 0
  | l :: _ => l.offset + l.nodes.size

def modules : Layers → List NodeId
  | [] => []
  | l :: _ => l.modules

/-- What is below a layer is looked for in the layers under it, where there may be none. -/
def get? : Layers → NodeId → Option Node
  | [], _ => none
  | l :: below, i => if i < l.offset then get? below i else l.nodes[i - l.offset]?

def new : Layers := [⟨0, #[], []⟩]

def extending (below : Layers) : Layers := ⟨below.size, #[], below.modules⟩ :: below

def insert (ls : Layers) (kind : Kind) (site : Site) : Layers :=
  match ls with
  | [] => []
  | l :: below => { l with nodes := l.nodes.push ⟨kind, site⟩ } :: below

def addModule (ls : Layers) (m : NodeId) : Layers :=
  match ls with
  | [] => []
  | l :: below => { l with modules := l.modules ++ [m] } :: below

end Layers

namespace Tree

def layers : Tree → Layers
  | root ns ms => [⟨0, ns, ms⟩]
  | layer base ns ms => ⟨base.size, ns, ms⟩ :: base.layers

variable (t : Tree)

theorem size_layers : t.layers.size = t.size := by
  cases t with
  | root ns ms => exact Nat.zero_add _
  | layer base ns ms => rfl

theorem modules_layers : t.layers.modules = t.modules := by
  cases t <;> rfl

theorem get?_layers (i : NodeId) : t.layers.get? i = t.get? i := by
  induction t with
  | root ns ms => exact if_neg (Nat.not_lt_zero i)
  | layer base ns ms ih => rw [layers, Layers.get?, ih, get?]

theorem nodes_eq_flatMap : t.nodes = t.layers.reverse.flatMap fun l => l.nodes.toList := by
  induction t with
  | root ns ms => simp [nodes, layers]
  | layer base ns ms ih => simp [nodes, layers, ih]

theorem layers_extending : (extending t).layers = t.layers.extending := by
  rw [extending, layers, Layers.extending, size_layers, modules_layers]

theorem layers_insert (k : Kind) (s : Site) : (t.insert k s).2.layers = t.layers.insert k s := by
  cases t <;> rfl

theorem layers_addModule (m : NodeId) : (t.addModule m).layers = t.layers.addModule m := by
  cases t <;> rfl

end Tree

section Programs

inductive Op where
  | start
  | extend (j : Nat)
  | insert (j : Nat) (kind : Kind) (site : Site)
  | addModule (j : Nat) (m : NodeId)

namespace Op

def target? : Op → Option Nat
  | insert j _ _ => some j
  | addModule j _ => some j
  | _ => none

end Op

structure Store (σ : Type) where
  start : σ
  extending : σ → σ
  insert : σ → Kind → Site → σ
  addModule : σ → NodeId → σ

variable {σ τ : Type}

namespace Store

def perform (S : Store σ) (pool : List σ) : Op → List σ
  | .start => pool ++ [S.start]
  | .extend j => pool ++ (pool[j]?.map S.extending).toList
  | .insert j kind site => pool.modify j (S.insert · kind site)
  | .addModule j m => pool.modify j (S.addModule · m)

def run (S : Store σ) (ops : List Op) : List σ := ops.foldl S.perform []

structure Shows (S : Store σ) (T : Store τ) (f : σ → τ) : Prop where
  start : f S.start = T.start
  extending : ∀ x, f (S.extending x) = T.extending (f x)
  insert : ∀ x k s, f (S.insert x k s) = T.insert (f x) k s
  addModule : ∀ x m, f (S.addModule x m) = T.addModule (f x) m

variable {S : Store σ} {T : Store τ} {f : σ → τ} (h : Shows S T f)

theorem map_modify {g : σ → σ} {g' : τ → τ} (hg : ∀ x, f (g x) = g' (f x)) (pool : List σ)
    (j : Nat) : (pool.modify j g).map f = (pool.map f).modify j g' := by
  refine List.ext_getElem? fun i => ?_
  simp only [List.getElem?_map, List.getElem?_modify]
  cases pool[i]? with
  | none => simp
  | some x =>
      by_cases hj : j = i
      · simp [hj, hg]
      · simp [hj]

include h

theorem Shows.perform (pool : List σ) (op : Op) :
    (S.perform pool op).map f = T.perform (pool.map f) op := by
  cases op with
  | start => simp [Store.perform, h.start]
  | extend j =>
      rw [Store.perform, Store.perform, List.map_append, List.getElem?_map]
      cases pool[j]? with
      | none => rfl
      | some x => simp [h.extending]
  | insert j k s => exact map_modify (fun x => h.insert x k s) pool j
  | addModule j m => exact map_modify (fun x => h.addModule x m) pool j

theorem Shows.run (ops : List Op) : (S.run ops).map f = T.run ops := by
  have hfrom (pool : List σ) :
      (ops.foldl S.perform pool).map f = ops.foldl T.perform (pool.map f) := by
    induction ops generalizing pool with
    | nil => rfl
    | cons op ops ih => rw [List.foldl_cons, List.foldl_cons, ih, h.perform]
  exact hfrom []

end Store

end Programs

def treeStore : Store Tree where
  start := .empty
  extending := .extending
  insert := fun t k s => (t.insert k s).2
  addModule := .addModule

def listStore : Store (List Node) where
  start := []
  extending := id
  insert := fun ns k s => ns ++ [⟨k, s⟩]
  addModule := fun ns _ => ns

def layerStore : Store Layers where
  start := .new
  extending := .extending
  insert := .insert
  addModule := .addModule

theorem treeStore_shows_lists : Store.Shows treeStore listStore Tree.nodes where
  start := rfl
  extending := Tree.nodes_extending
  insert := Tree.nodes_insert
  addModule := Tree.nodes_addModule

theorem treeStore_shows_layers : Store.Shows treeStore layerStore Tree.layers where
  start := rfl
  extending := Tree.layers_extending
  insert := Tree.layers_insert
  addModule := Tree.layers_addModule

namespace Tree

variable {t t₁ t' base : Tree}

structure Later (t t' : Tree) : Prop where
  nodes : t.nodes <+: t'.nodes
  modules : t.modules <+: t'.modules
  base? : t'.base? = t.base?

theorem Later.refl (t : Tree) : Later t t := ⟨List.prefix_rfl, List.prefix_rfl, rfl⟩

theorem Later.trans (h : Later t t₁) (h' : Later t₁ t') : Later t t' where
  nodes := h.nodes.trans h'.nodes
  modules := h.modules.trans h'.modules
  base? := h'.base?.trans h.base?

theorem later_insert (t : Tree) (k : Kind) (s : Site) : Later t (t.insert k s).2 := by
  refine ⟨nodes_insert t k s ▸ List.prefix_append _ _, ?_, ?_⟩
  · cases t <;> exact List.prefix_rfl
  · cases t <;> rfl

theorem later_addModule (t : Tree) (m : NodeId) : Later t (t.addModule m) := by
  refine ⟨nodes_addModule t m ▸ List.prefix_rfl, ?_, ?_⟩
  · cases t <;> exact List.prefix_append _ _
  · cases t <;> rfl

theorem Later.get?_eq (h : Later t t') {i : NodeId} (hi : i < t.nodes.length) :
    t'.get? i = t.get? i := by
  obtain ⟨more, hmore⟩ := h.nodes
  rw [get?_eq_getElem?, get?_eq_getElem?, ← hmore, List.getElem?_append_left hi]

structure Flat (t : Tree) : Prop where
  size : t.size = t.nodes.length
  get? : ∀ i, t.get? i = t.nodes[i]?
  layers : ∀ i, t.layers.get? i = t.nodes[i]?
  concatenated : t.nodes = t.layers.reverse.flatMap fun l => l.nodes.toList
  inherited : ∀ i, t.isInherited i ↔ ∃ base, t.base? = some base ∧ i < base.nodes.length
  insert : ∀ k s, (t.insert k s).1.toUInt32.toNat = t.nodes.length
  extending : (extending t).base? = some t

theorem flat_of_lt (ht : t.nodes.length < 2 ^ 32) : Flat t where
  size := (length_nodes t).symm
  get? := get?_eq_getElem? t
  layers := fun i => by rw [get?_layers, get?_eq_getElem?]
  concatenated := nodes_eq_flatMap t
  inherited := fun _ => isInherited_iff
  insert := fun k s => by
    rw [fst_insert, ← length_nodes]
    exact Nat.mod_eq_of_lt ht
  extending := rfl

end Tree

namespace Store

theorem later_perform {pool : List Tree} {j : Nat} {t : Tree} (h : pool[j]? = some t) (op : Op) :
    ∃ t', (treeStore.perform pool op)[j]? = some t' ∧ t.Later t' ∧
      (op.target? ≠ some j → t' = t) := by
  have hlt := (List.getElem?_eq_some_iff.mp h).1
  have hmodify {f : Tree → Tree} (hf : ∀ t : Tree, t.Later (f t)) (i : Nat) :
      ∃ t', (pool.modify i f)[j]? = some t' ∧ t.Later t' ∧ (some i ≠ some j → t' = t) := by
    rw [List.getElem?_modify, h]
    by_cases hi : i = j
    · exact ⟨f t, by simp [hi], hf t, fun hne => absurd (congrArg some hi) hne⟩
    · exact ⟨t, by simp [hi], .refl t, fun _ => rfl⟩
  cases op with
  | start => exact ⟨t, by rw [perform, List.getElem?_append_left hlt, h], .refl t, fun _ => rfl⟩
  | extend i => exact ⟨t, by rw [perform, List.getElem?_append_left hlt, h], .refl t, fun _ => rfl⟩
  | insert i k s => exact hmodify (fun t => t.later_insert k s) i
  | addModule i m => exact hmodify (fun t => t.later_addModule m) i

theorem later_run {pool : List Tree} {j : Nat} {t : Tree} (h : pool[j]? = some t)
    (ops : List Op) : ∃ t', (ops.foldl treeStore.perform pool)[j]? = some t' ∧ t.Later t' ∧
      ((∀ op ∈ ops, op.target? ≠ some j) → t' = t) := by
  induction ops generalizing pool t with
  | nil => exact ⟨t, h, .refl t, fun _ => rfl⟩
  | cons op ops ih =>
      obtain ⟨t₁, h₁, hlater, hsame⟩ := later_perform h op
      obtain ⟨t', h', hlater', hsame'⟩ := ih h₁
      refine ⟨t', h', hlater.trans hlater', fun hops => ?_⟩
      obtain ⟨hop, hrest⟩ := List.forall_mem_cons.mp hops
      rw [hsame' hrest, hsame hop]

end Store

namespace Lowering

variable {α : Type}

def Extends (m : Lowering α) (_ : List Part) (_ : α → List Part) : Prop :=
  ∀ t, Tree.Later t (m t).2

theorem extends_tracks : Tracks Extends where
  pure := fun _ t => .refl t
  bind := fun hm hf t => (hm t).trans (hf _ _)
  andThen := fun hm hf t => (hm t).trans (hf _ _)
  insert := fun _ _ t => t.later_insert _ _

end Lowering

namespace Tree

variable {t base : Tree}

theorem parseUnit_later {t₁ : Tree} {f : File} {u : NodeId}
    (h : t.parseUnit f = .ok (u, t₁)) : Later t t₁ := by
  simp only [parseUnit] at h
  split at h
  · next ds _ =>
      split at h
      · have hlater := Lowering.unit_tracked Lowering.extends_tracks (Layout.ofFile f) ds t
        rw [Except.ok.injEq] at h
        rwa [h] at hlater
      · cases h
  · cases h

theorem parseUnits_later (files : List File) (t : Tree) : Later t (t.parseUnits files).2.2 := by
  induction files generalizing t with
  | nil => exact .refl t
  | cons f fs ih =>
      rw [parseUnits]
      split
      · next u t₁ hunit => exact (parseUnit_later hunit).trans (ih t₁)
      · exact ih t

theorem parseModule_later {name : String} {files : List File}
    (h : parseModule base name files = .ok t) : Later (extending base) t := by
  simp only [parseModule] at h
  split at h
  · rw [Except.ok.injEq] at h
    subst h
    exact ((parseUnits_later files _).trans (later_insert _ _ _)).trans (later_addModule _ _)
  · cases h

/-- Trees that are made, extended and added to are read as lists that are, and keep what they
hold. So does the base of a module that is parsed. -/
theorem layers_read_flat (ops : List Op) :
    (treeStore.run ops).map nodes = listStore.run ops ∧
    (treeStore.run ops).map layers = layerStore.run ops ∧
    (∀ t ∈ treeStore.run ops, t.nodes.length < 2 ^ 32 → Flat t) ∧
    (∀ more j t, (treeStore.run ops)[j]? = some t →
      ∃ t', (treeStore.run (ops ++ more))[j]? = some t' ∧ Later t t' ∧
        (∀ i < t.nodes.length, t'.get? i = t.get? i) ∧
        ((∀ op ∈ more, op.target? ≠ some j) → t' = t)) ∧
    ∀ base name files t, parseModule base name files = .ok t →
      base.modules <+: t.modules ∧
      (∀ i < base.nodes.length, t.get? i = base.get? i) ∧
      ∀ i, t.isInherited i ↔ i < base.nodes.length := by
  refine ⟨treeStore_shows_lists.run ops, treeStore_shows_layers.run ops,
    fun t _ ht => flat_of_lt ht, fun more j t ht => ?_, fun base name files t h => ?_⟩
  · obtain ⟨t', ht', hlater, hsame⟩ := Store.later_run ht more
    refine ⟨t', ?_, hlater, fun i hi => hlater.get?_eq hi, hsame⟩
    rwa [Store.run, List.foldl_append]
  · have hlater := parseModule_later h
    refine ⟨hlater.modules, fun i hi => ?_, fun i => ?_⟩
    · rw [hlater.get?_eq (by rwa [nodes_extending]), get?_extending]
    · rw [isInherited_iff, hlater.base?]
      simp [extending, base?]

/-- A tree over one over a third, to the first of which a node is added in the end. -/
def layeringOps : List Op :=
  [.start, .insert 0 (.bool true) .synthesized, .extend 0, .insert 1 .wildcard .synthesized,
    .addModule 1 1, .extend 1, .insert 2 (.tuple [0, 1]) .synthesized,
    .insert 0 .wildcard .synthesized]

def threeLayers : Tree :=
  .layer (.layer (.root #[⟨.bool true, .synthesized⟩] []) #[⟨.wildcard, .synthesized⟩] [1])
    #[⟨.tuple [0, 1], .synthesized⟩] [1]

def overThree : File := .document "file:///main.orca" "let x = 7"

theorem threeLayers_read : (treeStore.run layeringOps)[2]? = some threeLayers ∧
    threeLayers.nodes.length < 2 ^ 32 ∧ Flat threeLayers ∧
    ∃ t, parseModule threeLayers "main" [overThree] = .ok t ∧ t.size = 10 ∧
      (∀ i < 3, t.get? i = threeLayers.get? i) ∧ t.isInherited 2 ∧ ¬ t.isInherited 3 := by
  have hlast : (treeStore.run layeringOps)[2]? = some threeLayers := rfl
  have hlt : threeLayers.nodes.length < 2 ^ 32 := by decide
  obtain ⟨-, -, hflat, -, hparsed⟩ := layers_read_flat layeringOps
  have hrun : ((parseModule threeLayers "main" [overThree]).toOption.any fun t =>
      decide (t.size = 10)) = true := by
    rw [parseModule, parseUnits, parseUnit, Layout.ofFile_of_text overThree rfl]
    decide +kernel
  cases hparse : parseModule threeLayers "main" [overThree] with
  | error e =>
      rw [hparse] at hrun
      simp [Except.toOption] at hrun
  | ok t =>
      rw [hparse] at hrun
      obtain ⟨-, hkept, hinherited⟩ := hparsed threeLayers "main" [overThree] t hparse
      refine ⟨hlast, hlt, hflat _ (List.mem_of_getElem? hlast) hlt, t, rfl,
        by simpa [Except.toOption] using hrun, hkept, (hinherited 2).mpr (by decide), fun h => ?_⟩
      exact absurd ((hinherited 3).mp h) (by decide)

end Tree

end LanguageService
