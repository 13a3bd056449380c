import LanguageService.Proofs.NameSites
import LanguageService.Proofs.Numbering

namespace LanguageService.Tree

variable {t : Tree} {enter : NodeId → Bool} {n x : NodeId}

def Entered (t : Tree) (enter : NodeId → Bool) : NodeId → NodeId → Prop :=
  Relation.ReflTransGen fun n c => enter n = true ∧ c ∈ t.children n

theorem entered_iff : t.Entered enter n x ↔
    x = n ∨ (enter n = true ∧ ∃ c ∈ t.children n, t.Entered enter c x) := by
  constructor
  · intro h
    rcases Relation.ReflTransGen.cases_head h with rfl | ⟨c, ⟨hn, hc⟩, h⟩
    · exact .inl rfl
    · exact .inr ⟨hn, c, hc, h⟩
  · rintro (rfl | ⟨hn, c, hc, h⟩)
    · exact .refl
    · exact .head ⟨hn, hc⟩ h

theorem Entered.below (h : t.Entered enter n x) : t.Below n x := by
  induction h with
  | refl => exact .refl n
  | tail _ hc ih => exact ih.trans (below_child hc.2)

theorem mem_visitAt (ht : t.WellFormed) {fuel : Nat} (hn : n < fuel) :
    x ∈ t.visitAt enter fuel n ↔ t.Entered enter n x := by
  induction fuel generalizing n with
  | zero => exact absurd hn (Nat.not_lt_zero n)
  | succ fuel ih =>
      have hchild : ∀ c ∈ t.children n, c < fuel :=
        fun c hc => Nat.lt_of_lt_of_le (ht.child_lt n c hc) (Nat.le_of_lt_succ hn)
      rw [visitAt, List.mem_cons, entered_iff]
      cases enter n with
      | false => simp
      | true =>
          simp only [if_true, List.mem_flatMap, true_and]
          refine or_congr_right (exists_congr fun c => and_congr_right fun hc => ?_)
          exact ih (hchild c hc)

theorem mem_visit (ht : t.WellFormed) (hn : n < t.size) :
    x ∈ t.visit enter n ↔ t.Entered enter n x :=
  mem_visitAt ht (Nat.lt_succ_of_lt hn)

theorem mem_preorder (ht : t.WellFormed) (hn : n < t.size) : x ∈ t.preorder n ↔ t.Below n x := by
  rw [preorder, mem_visit ht hn]
  refine ⟨Entered.below, fun h => ?_⟩
  induction h with
  | refl => exact .refl
  | tail _ hc ih => exact ih.tail ⟨rfl, hc⟩

theorem visitAt_pairwise (ht : t.WellFormed) {fuel : Nat} (hn : n < fuel) :
    (t.visitAt enter fuel n).Pairwise fun a b => ¬ t.Below b a := by
  induction fuel generalizing n with
  | zero => exact absurd hn (Nat.not_lt_zero n)
  | succ fuel ih =>
      have hchild : ∀ c ∈ t.children n, c < fuel :=
        fun c hc => Nat.lt_of_lt_of_le (ht.child_lt n c hc) (Nat.le_of_lt_succ hn)
      rw [visitAt, List.pairwise_cons]
      split
      · refine ⟨fun b hb => ?_, List.pairwise_flatMap.mpr ⟨fun c hc => ih (hchild c hc), ?_⟩⟩
        · obtain ⟨c, hc, hb⟩ := List.mem_flatMap.mp hb
          have hcb := ((mem_visitAt ht (hchild c hc)).mp hb).below
          exact fun hbn => not_below_parent ht hc (hcb.trans hbn)
        · refine (children_pairwise ht n).imp_of_mem fun {c c'} hc hc' hapart a ha b hb hba => ?_
          have hca := ((mem_visitAt ht (hchild c hc)).mp ha).below
          have hcb := ((mem_visitAt ht (hchild c' hc')).mp hb).below
          exact hapart a ⟨hca, hcb.trans hba⟩
      · exact ⟨List.forall_mem_nil _, .nil⟩

structure AddsModule (base t : Tree) (m : NodeId) : Prop where
  keeps : Keeps base t
  modules : t.modules = base.modules ++ [m]
  isModule : t.isModule m = true
  site : t.site m = .synthesized
  below : ∀ i, base.size ≤ i → i < t.size → t.Below m i

theorem Postorder.exists_below {is l : List NodeId} (h : t.Postorder is l) {i : NodeId}
    (hi : i ∈ l) : ∃ r ∈ is, t.Below r i := by
  induction h with
  | nil => exact absurd hi List.not_mem_nil
  | @cons j is below rest _ _ ihbelow ihrest =>
      rcases List.mem_append.mp hi with hi | hi
      · obtain ⟨c, hc, hbelow⟩ := ihbelow hi
        exact ⟨j, List.mem_cons_self, .of_child hc hbelow⟩
      · rcases List.mem_cons.mp hi with rfl | hi
        · exact ⟨i, List.mem_cons_self, .refl i⟩
        · obtain ⟨r, hr, hbelow⟩ := ihrest hi
          exact ⟨r, List.mem_cons_of_mem j hr, hbelow⟩

theorem parseModule_addsModule {base t : Tree} {name : String} {files : List File}
    (h : parseModule base name files = .ok t) : ∃ m, AddsModule base t m := by
  obtain ⟨m, hparsed⟩ := parseModule_parsedAs h
  have hkeeps := (parseModule_growsInBlocks h).keeps
  obtain ⟨us, hkind⟩ := hparsed.kind_eq
  obtain ⟨t₁, m', us', hadds, hkind', rfl⟩ := parseModule_adds h
  have hbase : (extending base).size = base.size := by simp [extending, size]
  have hsize : (t₁.addModule m').size = t₁.size := by cases t₁ <;> rfl
  have hchildren (i : NodeId) : (t₁.addModule m').children i = t₁.children i := by
    cases t₁ <;> rfl
  have hpost : (t₁.addModule m').Postorder [m'] (List.range' base.size (t₁.size - base.size)) :=
    hbase ▸ hadds.postorder.congr fun i _ => hchildren i
  have hle : base.size ≤ t₁.size := hsize ▸ hkeeps.size_le
  -- Both are the last node.
  obtain rfl : m' = m := by
    refine Nat.succ.inj (hpost.last_eq.trans ?_)
    rw [Nat.add_sub_cancel' hle, ← hsize, hparsed.size_eq]
  refine ⟨m', hkeeps, ?_, by simp [Tree.isModule, hkind], hparsed.site_eq, fun i hi hlt => ?_⟩
  · rw [show (t₁.addModule m').modules = t₁.modules ++ [m'] by cases t₁ <;> rfl, hadds.modules]
    rfl
  · obtain ⟨r, hr, hbelow⟩ := hpost.exists_below (i := i) (List.mem_range'_1.mpr (by omega))
    rwa [List.mem_singleton.mp hr] at hbelow

theorem Parsed.isModule (h : t.Parsed) {m : NodeId} (hm : m ∈ t.modules) :
    t.isModule m = true ∧ t.isSynthesized m = true := by
  induction h with
  | empty => exact absurd hm List.not_mem_nil
  | @module base t name files hbase h ih =>
      obtain ⟨m', hadds⟩ := parseModule_addsModule h
      rw [hadds.modules, List.mem_append, List.mem_singleton] at hm
      rcases hm with hm | rfl
      · have hlt := hbase.wellFormed.modules_lt m hm
        rw [Tree.isModule, hadds.keeps.kind_eq hlt, hadds.keeps.isSynthesized_eq hlt]
        exact ih hm
      · exact ⟨hadds.isModule, by rw [isSynthesized, hadds.site]; rfl⟩

theorem Parsed.children_of_module (h : t.Parsed) {m : NodeId} (hm : m ∈ t.modules) :
    t.children m = t.unitsOf m := by
  obtain ⟨hmodule, -⟩ := h.isModule hm
  cases hk : t.kind m <;> simp_all [Tree.isModule, children, unitsOf, Kind.children]

theorem mem_units {m u : NodeId} (hm : m ∈ t.modules) (hu : u ∈ t.unitsOf m) : u ∈ t.units :=
  List.mem_flatMap.mpr ⟨m, hm, hu⟩

theorem lt_size_of_mem_units (ht : t.WellFormed) {u : NodeId} (hu : u ∈ t.units) : u < t.size := by
  obtain ⟨m, _, _, _, hum⟩ := module_of_unit hu
  exact Nat.lt_trans (ht.child_lt m u hum) (lt_size_of_child hum)

theorem Keeps.below {base t : Tree} {n x : NodeId} (h : Keeps base t) (ht : base.WellFormed)
    (hn : n < base.size) (hx : base.Below n x) : t.Below n x := by
  induction hx with
  | refl => exact .refl n
  | @tail y z hy hz ih =>
      refine ih.trans (below_child ?_)
      rwa [h.children_eq (Nat.lt_of_le_of_lt (Below.le ht hy) hn)]

theorem Parsed.reached (h : t.Parsed) {n : NodeId} (hn : n < t.size)
    (hplain : t.isModule n = false) : t.Reached n := by
  induction h with
  | empty => exact absurd hn (Nat.not_lt_zero n)
  | @module base t name files hbase h ih =>
      obtain ⟨m, hadds⟩ := parseModule_addsModule h
      have hparsed := hbase.module h
      rcases Nat.lt_or_ge n base.size with hold | hnew
      · rw [Tree.isModule, hadds.keeps.kind_eq hold] at hplain
        obtain ⟨u, hu, hbelow⟩ := ih hold hplain
        obtain ⟨m', hm', hu'⟩ := List.mem_flatMap.mp hu
        have hlt := lt_size_of_mem_units hbase.wellFormed hu
        refine ⟨u, mem_units (m := m') ?_ ?_, hadds.keeps.below hbase.wellFormed hlt hbelow⟩
        · rw [hadds.modules]
          exact List.mem_append_left _ hm'
        · rwa [unitsOf, hadds.keeps.kind_eq (hbase.wellFormed.modules_lt m' hm')]
      · have hm : m ∈ t.modules := by simp [hadds.modules]
        rcases below_iff.mp (hadds.below n hnew hn) with rfl | ⟨u, hu, hbelow⟩
        · simp [hadds.isModule] at hplain
        · exact ⟨u, mem_units hm (hparsed.children_of_module hm ▸ hu), hbelow⟩

theorem Parsed.mem_units_of_unitOf? (h : t.Parsed) {uri : String} {u : NodeId}
    (hu : t.unitOf? uri = some u) : u ∈ t.units := by
  have ht := h.wellFormed
  obtain ⟨m, hm, hfind⟩ := List.exists_of_findSome?_eq_some hu
  have hunit := List.find?_some hfind
  have hentered := (mem_visit ht (ht.modules_lt m hm)).mp (List.mem_of_find?_eq_some hfind)
  rcases entered_iff.mp hentered with rfl | ⟨-, c, hc, hentered⟩
  · obtain ⟨hmodule, -⟩ := h.isModule hm
    simp only [isUnitOf] at hunit
    cases hk : t.kind u <;> simp_all [Tree.isModule]
  · have hc : c ∈ t.units := mem_units hm (h.children_of_module hm ▸ hc)
    rcases entered_iff.mp hentered with rfl | ⟨hmodule, -⟩
    · exact hc
    · obtain ⟨decls, hk⟩ := Kind.exists_of_isUnit (isUnit_of_mem_units ht hc)
      simp [Tree.isModule, hk] at hmodule

end LanguageService.Tree
