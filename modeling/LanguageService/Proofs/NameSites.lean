import LanguageService.Proofs.Owned
import Mathlib.Data.List.Pairwise

/-!
Where the words of a program stand: no two words of a file cover one place, and no two names of a
program whose files are told apart by their names stand at one place.
-/
namespace LanguageService

@[simp] theorem File.beq_self (f : File) : (f == f) = true := by simp [BEq.beq]

theorem File.uri_eq_of_beq {f f' : File} (h : (f == f') = true) : f.uri = f'.uri := by
  have hboth : (f.isSynthesized == f'.isSynthesized && f.uri == f'.uri) = true := h
  exact eq_of_beq (Bool.and_eq_true_iff.mp hboth).2

theorem Site.start_eq_of_beq {s s' : Site} (h : (s == s') = true) :
    s.file.uri = s'.file.uri ∧ s.start = s'.start ∧ s.stop = s'.stop := by
  change instBEqSite.beq s s' = true at h
  rw [instBEqSite.beq.eq_def, Bool.and_eq_true, Bool.and_eq_true] at h
  obtain ⟨hfile, hstart, hstop⟩ := h
  exact ⟨File.uri_eq_of_beq hfile, eq_of_beq hstart, eq_of_beq hstop⟩

def Piece.Covers (t : Tree) (o : Nat) (p : Piece) : Prop :=
  (p.site t).start ≤ o ∧ o < (p.site t).stop

namespace Tree

variable {t : Tree}

theorem placed_of_size_le {i : NodeId} (hi : t.size ≤ i) : t.Placed i := by
  have hkind : t.kind i = .wildcard := by rw [kind, get?_eq_none t hi]; rfl
  refine ⟨?_, ?_, ?_, ?_, ?_, ?_, ?_, ?_⟩ <;>
    simp [hkind, children, isModule, Kind.pieces, Kind.children, Kind.isMemberwiseInit, Kind.isExpr]

theorem Parsed.placed (h : t.Parsed) {i : NodeId} (hm : t.isModule i = false) : t.Placed i := by
  induction h with
  | empty => exact placed_of_size_le (Nat.zero_le i)
  | @module base t name files hbase h ih =>
      have hkeeps := (parseModule_growsInBlocks h).keeps
      obtain ⟨m, hparsed⟩ := parseModule_parsedAs h
      rcases Nat.lt_or_ge i base.size with hold | hnew
      · rw [isModule, hkeeps.kind_eq hold] at hm
        exact (ih hm).later hkeeps hold
      · rcases Nat.lt_or_ge i m with him | hmi
        · exact hparsed.placed i hnew him
        · rcases Nat.lt_or_ge i t.size with hlt | hle
          · obtain rfl := hparsed.eq_last hlt hmi
            obtain ⟨us, hk⟩ := hparsed.kind_eq
            simp [isModule, hk] at hm
          · exact placed_of_size_le hle

section Places

variable (h : t.Parsed) {u n : NodeId} (hu : u ∈ t.units)

include h hu

theorem notModule_of_below (hn : t.Below u n) : t.isModule n = false := by
  rw [isModule]
  split
  · next hk =>
      obtain rfl := eq_of_below_module h.wellFormed hk hn
      have hunit := isUnit_of_mem_units h.wellFormed hu
      simp [hk, Kind.isUnit] at hunit
  · rfl

theorem placed_of_below (hn : t.Below u n) : t.Placed n :=
  h.placed (notModule_of_below h hu hn)

theorem includes_of_below {p : NodeId} (hp : t.Below u p) (hn : t.Below p n)
    (hown : t.isSynthesized n = false) : (t.site p).Includes (t.site n) := by
  induction hn with
  | refl => exact .refl _
  | @tail q n hq hc ih =>
      have hinside := (placed_of_below h hu (hp.trans hq)).toNests.inside n hc hown
      exact (ih (hinside.isSynthesized_eq.symm.trans hown)).trans hinside

theorem part_around {c m : NodeId} (hn : t.Below u n) (hc : c ∈ t.children n) (hm : t.Below c m)
    (hown : t.isSynthesized m = false) :
    .part c ∈ (t.kind n).pieces ∧ (t.site c).Includes (t.site m) := by
  have hinside := includes_of_below h hu (hn.trans (below_child hc)) hm hown
  refine ⟨(Kind.mem_children_iff.mp hc).resolve_right fun hextra => ?_, hinside⟩
  have hhidden := (placed_of_below h hu hn).hidden c hc (.inr hextra)
  rw [isSynthesized, hinside.isSynthesized_eq] at hown
  simp [isSynthesized, hown] at hhidden

theorem piece_around {m : NodeId} {q : Piece} (hn : t.Below u n) (hm : t.Below n m)
    (hown : t.isSynthesized m = false) (hq : q ∈ (t.kind m).pieces) :
    ∃ p ∈ (t.kind n).pieces, (p.site t).Includes (q.site t) ∧
      ((m = n ∧ p = q) ∨ ∃ c, p = .part c ∧ t.Below c m) := by
  rcases below_iff.mp hm with rfl | ⟨c, hc, hcm⟩
  · exact ⟨q, hq, .refl _, .inl ⟨rfl, rfl⟩⟩
  · obtain ⟨hpart, hinside⟩ := part_around h hu hn hc hcm hown
    exact ⟨.part c, hpart, hinside.trans ((placed_of_below h hu (hn.trans hm)).written hown q hq).1,
      .inr ⟨c, rfl, hcm⟩⟩

theorem own_of_part {c : NodeId} (hn : t.Below u n) (hplain : (t.kind n).isMemberwiseInit = false)
    (hc : .part c ∈ (t.kind n).pieces) : t.isSynthesized c = false := by
  have hplaced := placed_of_below h hu hn
  cases hown : t.isSynthesized n with
  | false => exact (hplaced.written hown _ hc).1.isSynthesized_eq.trans hown
  | true =>
      have hchild : c ∈ t.children n := Kind.part_mem hc
      simp [hplaced.bare hown hplain] at hchild

theorem own_of_declares {x : Name} (hn : t.Below u n) (hx : (t.kind n).declares = some x)
    (htext : ¬ t.IsImplied n) : t.isSynthesized n = false := by
  have ht := h.wellFormed
  have hsorts : (t.kind n).isUnit = false ∧ (t.kind n).isMemberwise = false ∧
      (t.kind n).isStmt = false := by
    cases hk : t.kind n <;> simp_all [Kind.declares, Kind.isUnit, Kind.isMemberwise, Kind.isStmt]
  obtain ⟨hunit, hmemberwise, hstmt⟩ := hsorts
  have hne : n ≠ u := by
    rintro rfl
    simp [isUnit_of_mem_units ht hu] at hunit
  obtain ⟨q, hq, hc⟩ := hn.parent hne
  rcases Kind.mem_children_iff.mp hc with hpart | hextra
  · refine own_of_part h hu hq (Bool.eq_false_iff.mpr fun hinit => ?_) hpart
    cases hk : t.kind q with
    | init introducer ps body memberwise =>
        obtain rfl : memberwise = true := by simpa [hk, Kind.isMemberwiseInit] using hinit
        have hc : n ∈ ps ∨ n ∈ body.toList := by simpa [children, hk, Kind.children] using hc
        rcases hc with hp | hb
        · exact htext ⟨q, introducer, ps, body, hk, hp⟩
        · have hfits := ht.fits q (Kind.isStmt, n)
            (by simp [hk, Kind.parts, Option.mem_toList.mp hb])
          simp [hstmt] at hfits
    | _ => simp [hk, Kind.isMemberwiseInit] at hinit
  · cases hk : t.kind q with
    | product introducer y gs ms memberwise =>
        obtain rfl : memberwise = some n := by simpa [hk, Kind.extras] using hextra
        have hfits := ht.fits q (Kind.isMemberwise, n) (by simp [hk, Kind.parts])
        simp [hmemberwise] at hfits
    | _ => simp [hk, Kind.extras] at hextra

end Places

theorem Placed.piece_unique {n : NodeId} {p q : Piece} {o : Nat} (h : t.Placed n)
    (hown : t.isSynthesized n = false) (hp : p ∈ (t.kind n).pieces) (hq : q ∈ (t.kind n).pieces)
    (hpo : p.Covers t o) (hqo : q.Covers t o) : p = q := by
  by_contra hne
  have hpairwise : (t.kind n).pieces.Pairwise fun p q =>
      (p.site t).stop ≤ (q.site t).start ∨ (q.site t).stop ≤ (p.site t).start :=
    (h.inOrder hown).imp .inl
  have : Std.Symm fun p q : Piece =>
      (p.site t).stop ≤ (q.site t).start ∨ (q.site t).stop ≤ (p.site t).start :=
    ⟨fun _ _ => Or.symm⟩
  obtain ⟨hpo, hop⟩ := hpo
  obtain ⟨hqo, hoq⟩ := hqo
  rcases hpairwise.forall hp hq hne with hle | hle <;> omega

theorem Parsed.below_of_covers (h : t.Parsed) {u n m : NodeId} {p : Piece} {o : Nat}
    (hu : u ∈ t.units) (hn : t.Below u n) (hm : t.Below u m) (hown : t.isSynthesized n = false)
    (hown' : t.isSynthesized m = false) (hp : p ∈ (t.kind n).pieces) (hword : p.part? = none)
    (hpo : p.Covers t o) (hmo : (Piece.part m).Covers t o) : t.Below m n := by
  suffices hall : ∀ k, t.Below u k → t.Below k n → t.Below k m → t.Below m n from
    hall u (.refl u) hn hm
  intro k
  induction k using Nat.strong_induction_on with
  | _ k ih =>
      intro hk hkn hkm
      obtain ⟨r, hr, hinside, hrest⟩ := piece_around h hu hk hkn hown hp
      rcases below_iff.mp hkm with rfl | ⟨c, hc, hcm⟩
      · exact hkn
      · obtain ⟨hpart, hinside'⟩ := part_around h hu hk hc hcm hown'
        have hownk := (includes_of_below h hu hk hkn hown).isSynthesized_eq.symm.trans hown
        -- Both pieces of the node that is around the word and `m` cover the offset.
        obtain rfl : r = .part c := by
          refine (placed_of_below h hu hk).piece_unique hownk hr hpart (o := o) ?_ ?_
          · exact ⟨Nat.le_trans hinside.start hpo.1, Nat.lt_of_lt_of_le hpo.2 hinside.stop⟩
          · exact ⟨Nat.le_trans hinside'.start hmo.1, Nat.lt_of_lt_of_le hmo.2 hinside'.stop⟩
        rcases hrest with ⟨rfl, rfl⟩ | ⟨c', heq, hcn⟩
        · cases hword
        · cases heq
          exact ih c (h.wellFormed.child_lt k c hc) (hk.trans (below_child hc)) hcn hcm

theorem Parsed.word_unique (h : t.Parsed) {u n n' : NodeId} {p q : Piece} {o : Nat}
    (hu : u ∈ t.units) (hn : t.Below u n) (hn' : t.Below u n') (hown : t.isSynthesized n = false)
    (hown' : t.isSynthesized n' = false) (hp : p ∈ (t.kind n).pieces)
    (hq : q ∈ (t.kind n').pieces) (hword : p.part? = none) (hword' : q.part? = none)
    (hpo : p.Covers t o) (hqo : q.Covers t o) : n = n' ∧ p = q := by
  have hcovers {m : NodeId} {r : Piece} (hm : t.Below u m) (hownm : t.isSynthesized m = false)
      (hr : r ∈ (t.kind m).pieces) (hro : r.Covers t o) : (Piece.part m).Covers t o := by
    obtain ⟨hinside, -⟩ := (placed_of_below h hu hm).written hownm r hr
    exact ⟨Nat.le_trans hinside.start hro.1, Nat.lt_of_lt_of_le hro.2 hinside.stop⟩
  have hbelow := h.below_of_covers hu hn hn' hown hown' hp hword hpo (hcovers hn' hown' hq hqo)
  have hbelow' := h.below_of_covers hu hn' hn hown' hown hq hword' hqo (hcovers hn hown hp hpo)
  obtain rfl := hbelow'.antisymm h.wellFormed hbelow
  exact ⟨rfl, (placed_of_below h hu hn).piece_unique hown hp hq hpo hqo⟩

theorem Parsed.eq_of_uri (h : t.Parsed)
    (huris : (t.units.map fun u => (t.site u).file.uri).Nodup) {u u' n n' : NodeId}
    (hu : u ∈ t.units) (hu' : u' ∈ t.units) (hn : t.Below u n) (hn' : t.Below u' n')
    (hown : t.isSynthesized n = false) (hown' : t.isSynthesized n' = false)
    (huri : (t.site n).file.uri = (t.site n').file.uri) : u = u' := by
  have hfile := (includes_of_below h hu (.refl u) hn hown).file
  have hfile' := (includes_of_below h hu' (.refl u') hn' hown').file
  refine List.inj_on_of_nodup_map huris hu hu' ?_
  rw [← hfile, ← hfile', huri]

theorem Parsed.name_eq_of_site (h : t.Parsed)
    (huris : (t.units.map fun u => (t.site u).file.uri).Nodup) {n n' : NodeId} {x x' : Name}
    (hn : t.Reached n) (hn' : t.Reached n') (hk : t.kind n = .name none x)
    (hk' : t.kind n' = .name none x') (hsite : (x.site == x'.site) = true) : n = n' := by
  obtain ⟨u, hu, hn⟩ := hn
  obtain ⟨u', hu', hn'⟩ := hn'
  have hplaced := placed_of_below h hu hn
  have hplaced' := placed_of_below h hu' hn'
  have hown := hplaced.solid (by simp [hk, Kind.isExpr])
  have hown' := hplaced'.solid (by simp [hk', Kind.isExpr])
  have hx : .name x ∈ (t.kind n).pieces := by simp [hk, Kind.pieces]
  have hx' : .name x' ∈ (t.kind n').pieces := by simp [hk', Kind.pieces]
  obtain ⟨hinside, hwritten⟩ := hplaced.written hown _ hx
  obtain ⟨hinside', -⟩ := hplaced'.written hown' _ hx'
  obtain ⟨huri, hstart, hstop⟩ := Site.start_eq_of_beq hsite
  obtain rfl := h.eq_of_uri huris hu hu' hn hn' hown hown' (by
    rw [← hinside.file, ← hinside'.file]
    exact huri)
  have hlt : x.site.start < x.site.stop := hwritten.nonempty
  refine (h.word_unique hu hn hn' hown hown' hx hx' rfl rfl (o := x.site.start)
    ⟨Nat.le_refl _, hlt⟩ ⟨Nat.le_of_eq hstart.symm, ?_⟩).1
  exact Nat.lt_of_lt_of_eq hlt hstop

end Tree

end LanguageService
