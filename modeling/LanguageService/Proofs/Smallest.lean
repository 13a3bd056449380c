import LanguageService.Proofs.Innermost

/-!
The search for the smallest node at a place. What the walk passes over does not cover the place,
and of all that covers it the last of the shortest is kept.
-/
namespace LanguageService.Tree

variable {t : Tree} {f : File} {o : Nat} {m n x : NodeId} {xs : List NodeId}
  {enter p : NodeId → Bool}

section Choice

theorem foldl_smaller_of_lt (h : ∀ x ∈ xs, (t.site n).size < (t.site x).size) :
    xs.foldl t.smaller (some n) = some n := by
  induction xs with
  | nil => rfl
  | cons x xs ih =>
      obtain ⟨hx, hxs⟩ := List.forall_mem_cons.mp h
      rw [List.foldl_cons, smaller, if_neg (Nat.not_le_of_lt hx)]
      exact ih hxs

structure LastShortest (t : Tree) (before : List NodeId) (n : NodeId) (after : List NodeId) :
    Prop where
  before : ∀ x ∈ before, (t.site n).size ≤ (t.site x).size
  after : ∀ x ∈ after, (t.site n).size < (t.site x).size

theorem LastShortest.foldl_eq {before after : List NodeId} (h : t.LastShortest before n after) :
    (before ++ n :: after).foldl t.smaller none = some n := by
  rw [← List.singleton_append, ← List.append_assoc, List.foldl_append,
    foldl_smaller_concat h.before, foldl_smaller_of_lt h.after]

theorem exists_lastShortest (hxs : xs ≠ []) :
    ∃ before n after, xs = before ++ n :: after ∧ t.LastShortest before n after := by
  induction xs using List.reverseRecOn with
  | nil => exact absurd rfl hxs
  | append_singleton xs y ih =>
      rcases eq_or_ne xs [] with rfl | hne
      · exact ⟨[], y, [], rfl, by simp, by simp⟩
      · obtain ⟨before, n, after, rfl, hbefore, hafter⟩ := ih hne
        rcases Nat.lt_or_ge (t.site n).size (t.site y).size with hlt | hle
        · refine ⟨before, n, after ++ [y], by simp, hbefore, fun x hx => ?_⟩
          rcases List.mem_append.mp hx with hx | hx
          · exact hafter x hx
          · rwa [List.mem_singleton.mp hx]
        · refine ⟨before ++ n :: after, y, [], rfl, fun x hx => ?_, by simp⟩
          rcases List.mem_append.mp hx with hx | hx
          · exact Nat.le_trans hle (hbefore x hx)
          · rcases List.mem_cons.mp hx with rfl | hx
            · exact hle
            · exact Nat.le_trans hle (Nat.le_of_lt (hafter x hx))

theorem foldl_smaller_eq_none_iff : xs.foldl t.smaller none = none ↔ xs = [] := by
  refine ⟨fun h => ?_, fun h => h ▸ rfl⟩
  by_contra hne
  obtain ⟨before, n, after, rfl, hlast⟩ := exists_lastShortest (t := t) hne
  cases hlast.foldl_eq.symm.trans h

theorem foldl_smaller_eq_some_iff : xs.foldl t.smaller none = some n ↔
    ∃ before after, xs = before ++ n :: after ∧ t.LastShortest before n after := by
  constructor
  · intro h
    have hne : xs ≠ [] := by
      rintro rfl
      cases h
    obtain ⟨before, n', after, rfl, hlast⟩ := exists_lastShortest (t := t) hne
    cases hlast.foldl_eq.symm.trans h
    exact ⟨before, after, rfl, hlast⟩
  · rintro ⟨before, after, rfl, hlast⟩
    exact hlast.foldl_eq

end Choice

theorem below_of_mem_visitAt {fuel : Nat} (h : x ∈ t.visitAt enter fuel n) : t.Below n x := by
  induction fuel generalizing n with
  | zero => cases h
  | succ fuel ih =>
      rw [visitAt, List.mem_cons] at h
      rcases h with rfl | h
      · exact .refl x
      · split at h
        · obtain ⟨c, hc, hx⟩ := List.mem_flatMap.mp h
          exact .of_child hc (ih hx)
        · cases h

theorem filter_visitAt (fuel : Nat)
    (h : ∀ a, t.Below n a → enter a = false → ∀ c ∈ t.children a, ∀ x, t.Below c x → p x = false) :
    (t.visitAt enter fuel n).filter p = (t.visitAt (fun _ => true) fuel n).filter p := by
  induction fuel generalizing n with
  | zero => rfl
  | succ fuel ih =>
      have hrest : (if enter n then (t.children n).flatMap (t.visitAt enter fuel) else []).filter p =
          ((t.children n).flatMap (t.visitAt (fun _ => true) fuel)).filter p := by
        cases henter : enter n with
        | true =>
            rw [if_pos rfl, List.filter_flatMap, List.filter_flatMap]
            exact List.flatMap_congr fun c hc => ih fun a ha => h a ((below_child hc).trans ha)
        | false =>
            refine (List.filter_eq_nil_iff.mpr fun x hx => ?_).symm
            obtain ⟨c, hc, hx⟩ := List.mem_flatMap.mp hx
            simp [h n (.refl n) henter c hc x (below_of_mem_visitAt hx)]
      rw [visitAt, visitAt, List.filter_cons, List.filter_cons, hrest, if_pos rfl]

theorem encloses_of_not_mayEnclose (h : t.Parsed) {u a : NodeId} (hu : u ∈ t.units)
    (ha : t.Below u a) (hmay : t.mayEnclose f o a = false) (hx : t.Below a x) :
    t.encloses f o x = false := by
  cases hown : t.isSynthesized x with
  | true =>
      have hown : (t.site x).isSynthesized = true := hown
      simp [encloses, hown]
  | false =>
      have hinside := includes_of_below h hu ha hx hown
      have hstart := hinside.start
      simp only [mayEnclose, Bool.or_eq_false_iff, Bool.and_eq_false_iff, decide_eq_false_iff_not]
        at hmay
      simp only [encloses, Site.covers, hinside.file]
      rcases hmay.2 with hfile | hlater
      · simp [hfile]
      · have hlater : ¬ (t.site x).start ≤ o := by omega
        simp [hlater]

theorem filter_visit_mayEnclose (h : t.Parsed) (hm : m ∈ t.modules) :
    (t.visit (t.mayEnclose f o) m).filter (t.encloses f o) =
      (t.preorder m).filter (t.encloses f o) := by
  refine filter_visitAt _ fun a ha hmay c hc x hx => ?_
  rcases below_iff.mp ha with rfl | ⟨u, hu, hua⟩
  · have hmodule : (t.site a).isSynthesized = true := (h.isModule hm).2
    simp [mayEnclose, hmodule] at hmay
  · have hu : u ∈ t.units := mem_units hm (h.children_of_module hm ▸ hu)
    exact encloses_of_not_mayEnclose h hu hua hmay ((below_child hc).trans hx)

/-- In a module `n` is what covers the place and is shortest, and of nodes of one length the last
in pre-order. -/
def SmallestIn (t : Tree) (f : File) (o : Nat) (m n : NodeId) : Prop :=
  t.encloses f o n = true ∧ ∃ before after, t.preorder m = before ++ n :: after ∧
    (∀ x ∈ before, t.encloses f o x = true → (t.site n).size ≤ (t.site x).size) ∧
    ∀ x ∈ after, t.encloses f o x = true → (t.site n).size < (t.site x).size

theorem enclosingIn_eq_none_iff (h : t.Parsed) (hm : m ∈ t.modules) :
    t.enclosingIn f o m = none ↔ ∀ x ∈ t.preorder m, t.encloses f o x = false := by
  rw [enclosingIn, foldl_smaller_eq_none_iff, filter_visit_mayEnclose h hm]
  simp

theorem enclosingIn_eq_some_iff (h : t.Parsed) (hm : m ∈ t.modules) :
    t.enclosingIn f o m = some n ↔ t.SmallestIn f o m n := by
  rw [enclosingIn, foldl_smaller_eq_some_iff, filter_visit_mayEnclose h hm]
  constructor
  · rintro ⟨before, after, hsplit, hlast⟩
    obtain ⟨before', rest, hpre, rfl, hrest⟩ := List.filter_eq_append_iff.mp hsplit
    obtain ⟨between, after', rfl, hbetween, hn, rfl⟩ := List.filter_eq_cons_iff.mp hrest
    refine ⟨hn, before' ++ between, after', by simp [hpre], fun x hx hcovers => ?_,
      fun x hx hcovers => hlast.after x (List.mem_filter.mpr ⟨hx, hcovers⟩)⟩
    rcases List.mem_append.mp hx with hx | hx
    · exact hlast.before x (List.mem_filter.mpr ⟨hx, hcovers⟩)
    · exact absurd hcovers (hbetween x hx)
  · rintro ⟨hn, before, after, hpre, hbefore, hafter⟩
    refine ⟨before.filter (t.encloses f o), after.filter (t.encloses f o), ?_, ?_, ?_⟩
    · rw [hpre, List.filter_append, List.filter_cons_of_pos hn]
    · exact fun x hx => hbefore x (List.mem_filter.mp hx).1 (List.mem_filter.mp hx).2
    · exact fun x hx => hafter x (List.mem_filter.mp hx).1 (List.mem_filter.mp hx).2

theorem Parsed.below_module (h : t.Parsed) (hn : n < t.size) : ∃ m ∈ t.modules, t.Below m n := by
  induction h with
  | empty => exact absurd hn (Nat.not_lt_zero n)
  | @module base t name files hbase h ih =>
      obtain ⟨m, hadds⟩ := parseModule_addsModule h
      rcases Nat.lt_or_ge n base.size with hold | hnew
      · obtain ⟨m', hm', hbelow⟩ := ih hold
        have hlt := hbase.wellFormed.modules_lt m' hm'
        exact ⟨m', by simp [hadds.modules, hm'], hadds.keeps.below hbase.wellFormed hlt hbelow⟩
      · exact ⟨m, by simp [hadds.modules], hadds.below n hnew hn⟩

theorem exists_module_of_encloses (h : t.Parsed) (hx : t.encloses f o x = true) :
    ∃ m ∈ t.modules, x ∈ t.preorder m := by
  have ht := h.wellFormed
  have hlt : x < t.size := by
    by_contra hge
    have hnone : t.site x = .synthesized := by
      rw [site, get?_eq_none t (Nat.le_of_not_lt hge)]
      rfl
    simp [encloses, hnone, Site.synthesized, Site.isSynthesized, File.isSynthesized] at hx
  obtain ⟨m, hm, hbelow⟩ := h.below_module hlt
  exact ⟨m, hm, (mem_preorder ht (ht.modules_lt m hm)).mpr hbelow⟩

/-- The search finds nothing just where nothing covers the place. What it finds is in the first
module that has a node that covers the place, and there it is the last of the shortest; to pass
over nodes hides nothing. -/
theorem enclosing?_smallest (h : t.Parsed) (f : File) (o : Nat) :
    (t.enclosing? f o = none ↔ ∀ x, t.encloses f o x = false) ∧
      (∀ n, t.enclosing? f o = some n ↔
        ∃ earlier m later, t.modules = earlier ++ m :: later ∧
          (∀ m' ∈ earlier, ∀ x ∈ t.preorder m', t.encloses f o x = false) ∧
          t.SmallestIn f o m n) ∧
      ∀ m ∈ t.modules, (t.visit (t.mayEnclose f o) m).filter (t.encloses f o) =
        (t.preorder m).filter (t.encloses f o) := by
  refine ⟨?_, fun n => ?_, fun m hm => filter_visit_mayEnclose h hm⟩
  · rw [enclosing?, List.findSome?_eq_none_iff]
    constructor
    · intro hnone x
      by_contra hx
      obtain ⟨m, hm, hmem⟩ := exists_module_of_encloses h (Bool.of_not_eq_false hx)
      exact hx ((enclosingIn_eq_none_iff h hm).mp (hnone m hm) x hmem)
    · exact fun hnone m hm => (enclosingIn_eq_none_iff h hm).mpr fun x _ => hnone x
  · rw [enclosing?, List.findSome?_eq_some_iff]
    refine exists_congr fun earlier => exists_congr fun m => exists_congr fun later => ?_
    refine and_congr_right fun hsplit => ?_
    have hmem : ∀ m' ∈ earlier ++ m :: later, m' ∈ t.modules := fun m' hm' => hsplit ▸ hm'
    rw [enclosingIn_eq_some_iff h (hmem m (by simp)), and_comm]
    refine and_congr_left fun _ => forall₂_congr fun m' hm' => ?_
    exact enclosingIn_eq_none_iff h (hmem m' (by simp [hm']))

def shortDocument : File := .document "file:///main.orca" "let a = 1\n"

def pairDocument : File :=
  .document "file:///main.orca" "type P \x7b var n: Int \x7d
let b = ((P(n: (2))))
let (c) = (b)"

/-- The smallest nodes at offsets of a document that two modules have, the second of them twice,
and their places. -/
def foundTwice (f f' : File) (os : List Nat) : Option (List (Option (NodeId × Nat × Nat))) :=
  match parseModule .empty "first" [f] with
  | .error _ => none
  | .ok t =>
      match parseModule t "second" [f', f'] with
      | .error _ => none
      | .ok t => some (os.map fun o => (t.enclosing? f o).map fun n =>
          (n, (t.site n).start, (t.site n).stop))

set_option maxRecDepth 4000 in
theorem pairDocument_smallest : ∃ t : Tree, t.Parsed ∧
    (∀ x, t.encloses shortDocument 57 x = false) ∧
    ∀ q ∈ [(4, 0, 4, 5), (37, 41, 37, 40), (43, 50, 0, 57), (48, 46, 48, 51)],
      (t.site q.2.1).start = q.2.2.1 ∧ (t.site q.2.1).stop = q.2.2.2 ∧
      ∃ earlier m later, t.modules = earlier ++ m :: later ∧
        (∀ m' ∈ earlier, ∀ x ∈ t.preorder m', t.encloses shortDocument q.1 x = false) ∧
        t.SmallestIn shortDocument q.1 m q.2.1 := by
  have hrun : foundTwice shortDocument pairDocument [4, 37, 43, 48, 57] =
      some [some (0, 4, 5), some (41, 37, 40), some (50, 0, 57), some (46, 48, 51), none] := by
    simp only [foundTwice, parseModule, parseUnits, parseUnit,
      Layout.ofFile_of_text shortDocument rfl, Layout.ofFile_of_text pairDocument rfl]
    decide +kernel
  rw [foundTwice] at hrun
  cases hfirst : parseModule .empty "first" [shortDocument] with
  | error e => simp [hfirst] at hrun
  | ok t₁ =>
      cases hsecond : parseModule t₁ "second" [pairDocument, pairDocument] with
      | error e => simp [hfirst, hsecond] at hrun
      | ok t =>
          have ht : t.Parsed := .module (.module .empty hfirst) hsecond
          simp only [hfirst, hsecond, Option.some.injEq, List.map_cons, List.map_nil,
            List.cons.injEq, and_true, Option.map_eq_none_iff] at hrun
          refine ⟨t, ht, (enclosing?_smallest ht _ _).1.mp (by simp [hrun]), fun q hq => ?_⟩
          have hfound : (t.enclosing? shortDocument q.1).map (fun n =>
              (n, (t.site n).start, (t.site n).stop)) = some q.2 := by
            simp only [List.mem_cons, List.not_mem_nil, or_false] at hq
            rcases hq with rfl | rfl | rfl | rfl <;> simp [hrun]
          obtain ⟨n, hn, heq⟩ := Option.map_eq_some_iff.mp hfound
          rw [← heq]
          exact ⟨rfl, rfl, ((enclosing?_smallest ht _ _).2.1 n).mp hn⟩

end LanguageService.Tree
