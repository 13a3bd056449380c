import LanguageService.Proofs.Deltas
import LanguageService.Proofs.Outlined

/-!
What clients are sent of an outline: lines and columns, by which the selection of a symbol is
inside of its range as it is by offsets. This is so for trees that are made by hand too, whose
places may end anywhere.
-/
namespace LanguageService

namespace Symbol

structure InOrder (r q : Text.LineColumn × Text.LineColumn) : Prop where
  range : r.1.Precedes r.2
  selection : q.1.Precedes q.2
  start : r.1.Precedes q.1
  stop : q.2.Precedes r.2

def IsOrdered (s : Symbol) : Prop :=
  ∃ r q, s.range.positions? = some r ∧ s.selection.positions? = some q ∧ InOrder r q

variable {s s' : Symbol}

theorem isOrdered_of_contains (hinside : s.range.contains s.selection = true)
    (htext : s.range.file.text = s.selection.file.text)
    (hsmall : Text.bytes s.range.file.text.toList < 2 ^ 32)
    (hupright : s.selection.start ≤ s.selection.stop) : s.IsOrdered := by
  simp only [Site.contains, Bool.and_eq_true, decide_eq_true_eq] at hinside
  obtain ⟨⟨-, hstart⟩, hstop⟩ := hinside
  have hrange := Nat.le_trans (Nat.le_trans hstart hupright) hstop
  refine ⟨_, _, Site.positions?_eq hsmall, Site.positions?_eq (htext ▸ hsmall),
    Text.precedes_of_le hrange _, Text.precedes_of_le hupright _, ?_, ?_⟩
  · rw [Site.startPosition, Site.startPosition, File.lineColumn, File.lineColumn, htext]
    exact Text.precedes_of_le hstart _
  · rw [Site.stopPosition, Site.stopPosition, File.lineColumn, File.lineColumn, htext]
    exact Text.precedes_of_le hstop _

theorem mem_preorders_shown (h : s' ∈ preorders s.shown) :
    s.range.contains s.selection = true ∧ (s' = s ∨ s' ∈ preorders s.children) := by
  rw [shown] at h
  split at h
  · next hinside =>
      rw [preorders_singleton] at h
      exact ⟨hinside, List.mem_cons.mp h⟩
  · simp [preorders] at h

theorem mem_preorders_flatMap {α : Type} {f : α → List Symbol} {as : List α} :
    s ∈ preorders (as.flatMap f) ↔ ∃ a ∈ as, s ∈ preorders (f a) := by
  induction as with
  | nil => simp [preorders]
  | cons a as ih => simp [preorders_append, ih]

end Symbol

namespace Tree

def places (t : Tree) : List Site :=
  (List.range t.size).flatMap fun i => t.site i :: (t.kind i).pieces.map (Piece.site t)

def SharesTexts (t : Tree) : Prop :=
  ∀ s ∈ t.places, ∀ s' ∈ t.places, (s.file == s'.file) = true → s.file.text = s'.file.text

def Upright (t : Tree) : Prop :=
  ∀ s ∈ t.places, s.start ≤ s.stop

def IsSmall (t : Tree) : Prop :=
  ∀ s ∈ t.places, Text.bytes s.file.text.toList < 2 ^ 32

instance (t : Tree) : Decidable t.SharesTexts := inferInstanceAs (Decidable (∀ s ∈ _, _))

instance (t : Tree) : Decidable t.Upright := inferInstanceAs (Decidable (∀ s ∈ _, _))

instance (t : Tree) : Decidable t.IsSmall := inferInstanceAs (Decidable (∀ s ∈ _, _))

structure Shows (t : Tree) (s : Symbol) : Prop where
  range : s.range ∈ t.places
  selection : s.selection ∈ t.places
  inside : s.range.contains s.selection = true

variable {t : Tree} {s : Symbol}

theorem site_mem_places {i : NodeId} (hi : t.isSynthesized i = false) : t.site i ∈ t.places := by
  have hlt : i < t.size := by
    by_contra hle
    simp [isSynthesized, site, get?_eq_none t (Nat.le_of_not_lt hle), Site.synthesized,
      Site.isSynthesized, File.isSynthesized] at hi
  exact List.mem_flatMap.mpr ⟨i, List.mem_range.mpr hlt, List.mem_cons_self⟩

theorem piece_mem_places {i : NodeId} {p : Piece} (hp : p ∈ (t.kind i).pieces) :
    p.site t ∈ t.places := by
  have hlt : i < t.size := by
    by_contra hle
    simp [kind, get?_eq_none t (Nat.le_of_not_lt hle), Kind.pieces] at hp
  exact List.mem_flatMap.mpr
    ⟨i, List.mem_range.mpr hlt, List.mem_cons_of_mem _ (List.mem_map_of_mem hp)⟩

theorem mem_symbolsAt_of_heading? {fuel : Nat} {inType : Bool} {d : NodeId}
    (hd : t.heading? inType d = none)
    (hs : s ∈ Symbol.preorders (t.symbolsAt (fuel + 1) inType d)) :
    ∃ v x kind, t.kind v = .var x ∧
      s ∈ Symbol.preorders (Symbol.mk x.text none kind (t.site d) x.site []).shown := by
  rw [symbolsAt] at hs
  split at hs
  · simp [Symbol.preorders] at hs
  · cases hk : t.kind d with
    | binding p e =>
        simp only [hk] at hs
        obtain ⟨x, hx, hs⟩ := Symbol.mem_preorders_flatMap.mp hs
        obtain ⟨v, -, hv⟩ := List.mem_filterMap.mp hx
        refine ⟨v, x, _, ?_, hs⟩
        rw [varName?] at hv
        split at hv <;> simp_all
    | subscript i x ps o b => cases x <;> simp [heading?, hk] at hd
    | _ => simp [heading?, hk, Symbol.preorders] at hd hs

theorem shows_of_mem_symbolsAt {fuel : Nat} {inType : Bool} {d : NodeId}
    (hs : s ∈ Symbol.preorders (t.symbolsAt fuel inType d)) : t.Shows s := by
  induction fuel generalizing inType d with
  | zero => simp [symbolsAt, Symbol.preorders] at hs
  | succ fuel ih =>
      have hd : t.isSynthesized d = false := by
        by_contra hd
        have hsite : (t.site d).isSynthesized = true := eq_true_of_ne_false hd
        simp [symbolsAt, hsite, Symbol.preorders] at hs
      cases hh : t.heading? inType d with
      | none =>
          obtain ⟨v, x, kind, hv, hs⟩ := mem_symbolsAt_of_heading? hh hs
          obtain ⟨hinside, rfl | hs⟩ := Symbol.mem_preorders_shown hs
          · have hx : .name x ∈ (t.kind v).pieces := by simp [hv, Kind.pieces]
            exact ⟨site_mem_places hd, piece_mem_places hx, hinside⟩
          · simp [Symbol.children, Symbol.preorders] at hs
      | some x =>
          rw [symbolsAt_of_heading? hd hh] at hs
          obtain ⟨hinside, rfl | hs⟩ := Symbol.mem_preorders_shown hs
          · obtain ⟨p, hp, hselection⟩ := heading?_selection hh
            exact ⟨site_mem_places hd, hselection ▸ piece_mem_places hp, hinside⟩
          · obtain ⟨m, -, hs⟩ := Symbol.mem_preorders_flatMap.mp hs
            exact ih hs

theorem shows_of_mem_outline {uri : String} (hs : s ∈ Symbol.preorders (t.outline uri)) :
    t.Shows s := by
  rw [outline] at hs
  split at hs
  · split at hs
    · obtain ⟨d, -, hs⟩ := Symbol.mem_preorders_flatMap.mp hs
      exact shows_of_mem_symbolsAt hs
    · simp [Symbol.preorders] at hs
  · simp [Symbol.preorders] at hs

theorem Parsed.solid_of_mem_outline (h : t.Parsed) {uri : String}
    (hs : s ∈ Symbol.preorders (t.outline uri)) : s.selection.start < s.selection.stop := by
  cases hu : t.unitOf? uri with
  | none => simp [outline, hu, Symbol.preorders] at hs
  | some u =>
      have hunit := isUnit_of_mem_units h.wellFormed (h.mem_units_of_unitOf? hu)
      obtain ⟨ds, hk⟩ := Kind.exists_of_isUnit hunit
      exact ((outlines_outline h hu hk).2 s hs).solid

def notesFile : File := .document "file:///notes.orca" "é\n𝒳y"

/-- A tree that is made by hand. Its places start inside of characters and stop past the end. -/
def notesTree : Tree :=
  .root #[⟨.associated ⟨notesFile, 4, 4⟩ ⟨"Part", ⟨notesFile, 5, 7⟩⟩, ⟨notesFile, 4, 90⟩⟩,
    ⟨.space ⟨notesFile, 0, 1⟩ ⟨"Notes", ⟨notesFile, 1, 3⟩⟩ [0], ⟨notesFile, 1, 95⟩⟩,
    ⟨.unit [1], .whole notesFile⟩, ⟨.module "notes" [2], .synthesized⟩] [3]

section Made

/-- A tree that is made by hand, of a namespace from `start` to `stop` with a name somewhere. -/
def spaceTree (f : File) (start stop nameStart nameStop : Nat) : Tree :=
  .root #[⟨.space .synthesized ⟨"N", ⟨f, nameStart, nameStop⟩⟩ [], ⟨f, start, stop⟩⟩,
    ⟨.unit [0], ⟨f, start, stop⟩⟩, ⟨.module "main" [1], .synthesized⟩] [2]

variable {text : String} {a b c d : Nat}

theorem places_spaceTree (f : File) : (spaceTree f a b c d).places =
    [⟨f, a, b⟩, .synthesized, ⟨f, c, d⟩, ⟨f, a, b⟩, ⟨f, a, b⟩, .synthesized, ⟨f, a, b⟩] := rfl

theorem sharesTexts_spaceTree :
    (spaceTree (.document "file:///main.orca" text) a b c d).SharesTexts := by
  have hfile : ∀ s ∈ (spaceTree (.document "file:///main.orca" text) a b c d).places,
      s.file = .document "file:///main.orca" text ∨ s.file = .synthesized := by
    simp [places_spaceTree, Site.synthesized]
  intro s hs s' hs' hsame
  rcases hfile s hs with h | h <;> rcases hfile s' hs' with h' | h' <;> rw [h, h'] at hsame ⊢
  · cases hsame
  · cases hsame

theorem upright_spaceTree (f : File) (h : a ≤ b) (h' : c ≤ d) : (spaceTree f a b c d).Upright := by
  simp [Upright, places_spaceTree, Site.synthesized, h, h']

theorem outline_spaceTree (hstart : a ≤ c) (hstop : d ≤ b) :
    (spaceTree (.document "file:///main.orca" text) a b c d).outline "file:///main.orca" =
      [.mk "N" none .space ⟨.document "file:///main.orca" text, a, b⟩
        ⟨.document "file:///main.orca" text, c, d⟩ []] := by
  have hunit : (spaceTree (.document "file:///main.orca" text) a b c d).unitOf?
      "file:///main.orca" = some 1 := rfl
  have hinside : Site.contains ⟨.document "file:///main.orca" text, a, b⟩
      ⟨.document "file:///main.orca" text, c, d⟩ = true := by
    simp [Site.contains, hstart, hstop, BEq.beq]
  have hshown : (Symbol.mk "N" none .space ⟨.document "file:///main.orca" text, a, b⟩
      ⟨.document "file:///main.orca" text, c, d⟩ []).shown = [_] := if_pos hinside
  rw [outline, hunit]
  exact congrArg (· ++ []) hshown

theorem isOrdered_spaceTree (hstart : a ≤ c) (hstop : d ≤ b)
    (h : ∀ s ∈ Symbol.preorders ((spaceTree (.document "file:///main.orca" text) a b c d).outline
      "file:///main.orca"), s.IsOrdered) :
    (Symbol.mk "N" none .space ⟨.document "file:///main.orca" text, a, b⟩
        ⟨.document "file:///main.orca" text, c, d⟩ []).IsOrdered :=
  h _ (by rw [outline_spaceTree hstart hstop]; exact List.mem_cons_self)

end Made

end Tree

end LanguageService
