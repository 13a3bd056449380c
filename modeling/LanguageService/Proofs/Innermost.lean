import LanguageService.Enclosing
import LanguageService.Proofs.Walking

namespace LanguageService.Tree

variable {t : Tree} {d x : NodeId}

theorem mem_of_foldl_smaller {xs : List NodeId} {best : Option NodeId}
    (h : xs.foldl t.smaller best = some x) : best = some x ∨ x ∈ xs := by
  induction xs generalizing best with
  | nil => exact .inl h
  | cons y ys ih =>
      rcases ih h with hbest | hx
      · rw [smaller.eq_def] at hbest
        split at hbest
        · cases hbest
          exact .inr List.mem_cons_self
        · split at hbest <;> cases hbest
          · exact .inr List.mem_cons_self
          · exact .inl rfl
      · exact .inr (List.mem_cons_of_mem y hx)

theorem foldl_smaller_concat {xs : List NodeId}
    (h : ∀ x ∈ xs, (t.site d).size ≤ (t.site x).size) :
    (xs ++ [d]).foldl t.smaller none = some d := by
  rw [List.foldl_append, List.foldl_cons, List.foldl_nil]
  cases hbest : xs.foldl t.smaller none with
  | none => rfl
  | some b =>
      have hb : b ∈ xs := (mem_of_foldl_smaller hbest).resolve_left (by simp)
      rw [smaller, if_pos (h b hb)]

theorem Entered.of_below {enter : NodeId → Bool} {n : NodeId} (h : t.Below n d)
    (henter : ∀ a c, t.Below n a → c ∈ t.children a → t.Below c d → enter a = true) :
    t.Entered enter n d := by
  induction h with
  | refl => exact .refl
  | @tail a c ha hc ih =>
      refine .tail (ih fun a' c' ha' hc' hbelow => ?_) ⟨henter a c ha hc (.refl c), hc⟩
      exact henter a' c' ha' hc' (hbelow.trans (below_child hc))

section Words

variable (h : t.Parsed) (huris : (t.units.map fun u => (t.site u).file.uri).Nodup)
  {u m : NodeId} (hu : u ∈ t.units) (hd : t.Below u d) (hown : t.isSynthesized d = false)
  {p : Piece} (hp : p ∈ (t.kind d).pieces) (hword : p.part? = none) {o : Nat} (ho : p.Covers t o)

include h hu hd hown hp ho

theorem covers_of_piece {a : NodeId} (ha : t.Below u a) (had : t.Below a d) :
    (t.site a).file = (t.site d).file ∧ t.isSynthesized a = false ∧
      (t.site a).start ≤ o ∧ o < (t.site a).stop := by
  have hinside := includes_of_below h hu ha had hown
  obtain ⟨hpiece, -⟩ := (placed_of_below h hu hd).written hown p hp
  refine ⟨hinside.file.symm, hinside.isSynthesized_eq.symm.trans hown, ?_, ?_⟩
  · exact Nat.le_trans (hinside.trans hpiece).start ho.1
  · exact Nat.lt_of_lt_of_le ho.2 (hinside.trans hpiece).stop

theorem entered_of_piece (hm : m ∈ t.modules) (hum : u ∈ t.children m) :
    t.Entered (t.mayEnclose (t.site d).file o) m d := by
  refine .head ⟨?_, hum⟩ (Entered.of_below hd fun a c ha hc hcd => ?_)
  · have hsynthesized : (t.site m).isSynthesized = true := (h.isModule hm).2
    simp [mayEnclose, hsynthesized]
  · obtain ⟨hfile, -, hstart, -⟩ :=
      covers_of_piece h hu hd hown hp ho ha ((below_child hc).trans hcd)
    simp [mayEnclose, hfile, hstart]

include huris hword

theorem below_of_encloses (hm : m ∈ t.modules) (hx : t.Below m x)
    (hencloses : t.encloses (t.site d).file o x = true) :
    u ∈ t.children m ∧ t.Below u x ∧ t.Below x d := by
  simp only [encloses, Site.covers, Bool.and_eq_true, Bool.not_eq_true', decide_eq_true_eq]
    at hencloses
  obtain ⟨hownx : t.isSynthesized x = false, ⟨hfile, hstart⟩, hstop⟩ := hencloses
  rcases below_iff.mp hx with rfl | ⟨c, hc, hcx⟩
  · simp [(h.isModule hm).2] at hownx
  · have hcu : c ∈ t.units := mem_units hm (h.children_of_module hm ▸ hc)
    obtain rfl := h.eq_of_uri huris hcu hu hcx hd hownx hown (File.uri_eq_of_beq hfile)
    exact ⟨hc, hcx, h.below_of_covers hu hd hcx hown hownx hp hword ho ⟨hstart, hstop⟩⟩

theorem enclosingIn_eq (hm : m ∈ t.modules) (hum : u ∈ t.children m) :
    t.enclosingIn (t.site d).file o m = some d := by
  have ht := h.wellFormed
  have hfuel : m < t.size + 1 := Nat.lt_succ_of_lt (ht.modules_lt m hm)
  have hmem : d ∈ t.visit (t.mayEnclose (t.site d).file o) m :=
    (mem_visitAt ht hfuel).mpr (entered_of_piece h hu hd hown hp ho hm hum)
  have hbelow : ∀ x ∈ t.visit (t.mayEnclose (t.site d).file o) m, t.Below m x :=
    fun x hx => ((mem_visitAt ht hfuel).mp hx).below
  have hordered : (t.visit (t.mayEnclose (t.site d).file o) m).Pairwise fun a b => ¬ t.Below b a :=
    visitAt_pairwise ht hfuel
  obtain ⟨-, -, hstart, hstop⟩ := covers_of_piece h hu hd hown hp ho hd (.refl d)
  have hd' : t.encloses (t.site d).file o d = true := by
    have hown' : (t.site d).isSynthesized = false := hown
    simp [encloses, Site.covers, hown', hstart, hstop]
  have haround : ∀ x ∈ (t.visit (t.mayEnclose (t.site d).file o) m).filter
      (t.encloses (t.site d).file o), t.Below u x ∧ t.Below x d := fun x hx =>
    (below_of_encloses h huris hu hd hown hp hword ho hm (hbelow x (List.mem_filter.mp hx).1)
      (List.mem_filter.mp hx).2).2
  obtain ⟨pre, post, hsplit⟩ := List.append_of_mem (List.mem_filter.mpr ⟨hmem, hd'⟩)
  have hordered' := hordered.filter (t.encloses (t.site d).file o)
  rw [enclosingIn]
  rw [hsplit] at haround hordered' ⊢
  -- What would come after `d` would have `d` below it.
  obtain rfl : post = [] := by
    cases post with
    | nil => rfl
    | cons x rest =>
        have hlater := (List.pairwise_cons.mp (List.pairwise_append.mp hordered').2.1).1
        exact absurd (haround x (by simp)).2 (hlater x List.mem_cons_self)
  refine foldl_smaller_concat fun x hx => ?_
  obtain ⟨hux, hxd⟩ := haround x (by simp [hx])
  exact (includes_of_below h hu hux hxd hown).size_le

theorem enclosing?_eq : t.enclosing? (t.site d).file o = some d := by
  obtain ⟨m, hm, hum⟩ := List.mem_flatMap.mp hu
  have hum : u ∈ t.children m := h.children_of_module hm ▸ hum
  have hfound := enclosingIn_eq h huris hu hd hown hp hword ho hm hum
  rw [enclosing?]
  cases hfind : t.modules.findSome? (t.enclosingIn (t.site d).file o) with
  | none =>
      have hnone := List.findSome?_eq_none_iff.mp hfind m hm
      simp [hfound] at hnone
  | some x =>
      obtain ⟨m', hm', hx⟩ := List.exists_of_findSome?_eq_some hfind
      have hmem := (mem_of_foldl_smaller (t := t) hx).resolve_left (by simp)
      obtain ⟨hmem, hencloses⟩ := List.mem_filter.mp hmem
      have hbelow := ((mem_visit h.wellFormed (h.wellFormed.modules_lt m' hm')).mp hmem).below
      obtain ⟨hum', -⟩ := below_of_encloses h huris hu hd hown hp hword ho hm' hbelow hencloses
      rw [enclosingIn_eq h huris hu hd hown hp hword ho hm' hum'] at hx
      exact hx.symm

end Words

end LanguageService.Tree
