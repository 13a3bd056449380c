import LanguageService.Proofs.EmittedDecl
import Mathlib.Data.List.Forall2

namespace LanguageService

open Surface (Spelling Strung Holds)
open Highlight (marksAt)

theorem Surface.Spelling.word_of_layers {t : Token} {n i : Nat} {ts : List Token}
    (h : layers (word t) n i ts) : ∃ rest,
      ts = List.replicate n (.punct .lparen) ++ t :: rest ∧ n ≤ rest.length ∧
        (n = 0 → rest = []) ∧ ∀ k ∈ rest, k = .punct .rparen ∨ k = .punct .comma := by
  induction n generalizing i ts with
  | zero => exact ⟨[], h, Nat.le_refl 0, fun _ => rfl, List.forall_mem_nil _⟩
  | succ n ih =>
      obtain ⟨_, _, rfl, ⟨_, _, rfl, rfl, us, vs, rfl, hus, hvs⟩, rfl⟩ := h
      obtain ⟨rest, rfl, hn, -, hrest⟩ := ih hus
      refine ⟨rest ++ (vs ++ [.punct .rparen]), by simp [List.replicate_succ], ?_,
        fun h => absurd h (Nat.succ_ne_zero n), ?_⟩
      · simp only [List.length_append, List.length_singleton]
        omega
      · rcases hvs with rfl | rfl <;> simpa [or_imp, forall_and] using hrest

namespace Layout

variable {l : Layout} {m : Mark} {ms : List Mark} {i : Nat} {ts us : List Token} {as : List Nat}

/-- The mark is on the token of number `j`. If that is a literal, there may be parentheses around
it that the mark is on as well. -/
def Hits (l : Layout) (t : Token) (j : Nat) (m : Mark) : Prop :=
  ∃ a b, a ≤ j ∧ j < b ∧ b ≤ l.tokens.length ∧ m.site = l.site ⟨a, b⟩ ∧
    (a = j ∧ b = j + 1 ∨ t.isLiteral = true ∧ a < j ∧ j + 1 < b ∧
      (∀ k, a ≤ k → k < j → l.tokens[k]? = some (.punct .lparen)) ∧
      ∀ k, j < k → k < b →
        l.tokens[k]? = some (.punct .rparen) ∨ l.tokens[k]? = some (.punct .comma))

theorem getElem?_of_holds (h : Holds l.tokens i ts) {k : Nat} (hk : k < ts.length) :
    l.tokens[i + k]? = ts[k]? := by
  obtain ⟨before, after, htokens, rfl⟩ := h
  rw [htokens, List.getElem?_append_right (Nat.le_add_right _ _), Nat.add_sub_cancel_left,
    List.getElem?_append_left hk]

theorem Lies.hits (h : l.Lies m i us as) (hheld : Holds l.tokens i us) :
    as = [] ∧ ∃ t ps rs, us = ps ++ t :: rs ∧ (∀ k ∈ ps, k.isShown = false) ∧
      (∀ k ∈ rs, k.isShown = false) ∧ t.isShown = true ∧ l.Hits t (i + ps.length) m := by
  obtain ⟨has, hsite, t, n, hlayers, ht, hn⟩ := h
  obtain ⟨rest, rfl, hle, hnone, hrest⟩ := Spelling.word_of_layers hlayers
  refine ⟨has, t, _, rest, rfl, ?_, ?_, ht, i, _, Nat.le_add_right _ _, ?_, hheld.le, hsite, ?_⟩
  · intro k hk
    rw [List.eq_of_mem_replicate hk]
    rfl
  · intro k hk
    rcases hrest k hk with rfl | rfl <;> rfl
  · simp only [List.length_append, List.length_cons]
    omega
  · simp only [List.length_append, List.length_replicate, List.length_cons]
    rcases Nat.eq_zero_or_pos n with rfl | hpos
    · exact .inl ⟨by omega, by simp [hnone rfl]⟩
    · refine .inr ⟨hn.resolve_left (Nat.ne_of_gt hpos), by omega, by omega, ?_, ?_⟩
      · intro k hik hkn
        obtain ⟨k, rfl⟩ := Nat.exists_eq_add_of_le hik
        have hk : k < n := by omega
        rw [getElem?_of_holds hheld (by simp; omega),
          List.getElem?_append_left (by simpa using hk)]
        simp [hk]
      · intro k hik hkn
        obtain ⟨k, rfl⟩ := Nat.exists_eq_add_of_le (Nat.succ_le_of_lt hik)
        have hk : k < rest.length := by omega
        have hget : l.tokens[i + n + 1 + k]? = rest[k]? := by
          rw [show i + n + 1 + k = i + (n + (k + 1)) by omega,
            getElem?_of_holds hheld (by simp; omega), List.getElem?_append_right (by simp)]
          simp
        rw [hget, List.getElem?_eq_getElem hk]
        simpa using hrest _ (List.getElem_mem hk)

theorem angle_of_strung (h : Strung l.Lies i ts as ms) :
    ∀ a ∈ as, ∃ j k, a = i + j ∧ ts[j]? = some k ∧ (k = .op "<" ∨ k = .op ">") :=
  h.angle_token fun _ _ _ _ h => h.1

theorem forall₂_of_strung (h : Strung l.Lies i ts as ms) (hheld : Holds l.tokens i ts)
    {before : List Nat} (hbefore : ∀ a ∈ before, a < i) :
    List.Forall₂ (fun x m => l.Hits x.1 x.2 m)
      ((ts.zipIdx i).filter fun x => x.1.isShown && !(before ++ as).contains x.2) ms := by
  induction h generalizing before with
  | nil => exact .nil
  | @hidden i t ts as ms ht hrest ih =>
      rw [List.zipIdx_cons, List.filter_cons_of_neg (by simp [ht])]
      exact ih hheld.tail fun a ha => Nat.lt_succ_of_lt (hbefore a ha)
  | @angle i t ts as ms ht hrest ih =>
      rw [List.zipIdx_cons, List.filter_cons_of_neg (by simp)]
      have hnext : ∀ a ∈ before ++ [i], a < i + 1 := by
        simpa [or_imp, forall_and] using fun a ha => Nat.lt_succ_of_lt (hbefore a ha)
      simpa using ih hheld.tail hnext
  | @item i us vs as bs m ms hm hrest ih =>
      obtain ⟨rfl, t, ps, rs, rfl, hps, hrs, ht, hhits⟩ := hm.hits hheld.left
      have hnone {xs : List Token} (hxs : ∀ k ∈ xs, k.isShown = false) (j : Nat) :
          (xs.zipIdx j).filter (fun x => x.1.isShown && !(before ++ bs).contains x.2) = [] := by
        refine List.filter_eq_nil_iff.mpr fun x hx => ?_
        simp [hxs x.1 (List.fst_mem_of_mem_zipIdx hx)]
      have hplain : (before ++ bs).contains (i + ps.length) = false := by
        rw [List.contains_eq_mem, decide_eq_false_iff_not, List.mem_append]
        rintro (ha | ha)
        · exact absurd (hbefore _ ha) (by omega)
        · obtain ⟨j, k, hj, -⟩ := angle_of_strung hrest _ ha
          simp only [List.length_append, List.length_cons] at hj
          omega
      rw [List.nil_append, List.zipIdx_append, List.filter_append, List.zipIdx_append,
        List.filter_append, hnone hps, List.zipIdx_cons,
        List.filter_cons_of_pos (by simp only [ht, hplain]; rfl), hnone hrs]
      exact .cons hhits (ih hheld.right fun a ha => Nat.lt_of_lt_of_le (hbefore a ha) (by omega))

end Layout

namespace File

def angles (f : File) : List Nat :=
  match Surface.parse (Layout.ofFile f).tokens with
  | .ok ds => Surface.Decl.allAngles ds
  | .error _ => []

/-- The tokens that are highlighted: all but punctuation, the pattern that binds nothing, and the
angle brackets around generic parameters. -/
def shown (f : File) : List Lexeme :=
  ((Lexer.tokens f.text.toList).zipIdx.filter fun x =>
    x.1.token.isShown && !f.angles.contains x.2).map (·.1)

theorem mem_tokens_of_shown {f : File} {x : Lexeme} (hx : x ∈ f.shown) :
    x ∈ Lexer.tokens f.text.toList ∧ x.token.isShown = true := by
  obtain ⟨⟨y, i⟩, hy, rfl⟩ := List.mem_map.mp hx
  obtain ⟨hmem, hshown⟩ := List.mem_filter.mp hy
  exact ⟨List.fst_mem_of_mem_zipIdx hmem, (Bool.and_eq_true_iff.mp hshown).1⟩

end File

/-- Around a token the place has parentheses that open before it and close after it, with commas
before they close, and no other tokens. -/
structure Site.Wraps (s : Site) (x : Lexeme) : Prop where
  start_lt : s.start < x.start
  lt_stop : x.stop < s.stop
  parens : ∀ y ∈ Lexer.tokens s.file.text.toList, s.start ≤ y.start → y.stop ≤ s.stop →
    y = x ∨ y.stop ≤ x.start ∧ y.token = .punct .lparen ∨
      x.stop ≤ y.start ∧ (y.token = .punct .rparen ∨ y.token = .punct .comma)

/-- The mark is on a token of the file: on just it, or on a literal and parentheses around it. -/
structure Mark.IsOn (f : File) (x : Lexeme) (m : Mark) : Prop where
  file : m.site.file = f
  opens : ∃ y ∈ Lexer.tokens f.text.toList, y.start = m.site.start
  closes : ∃ y ∈ Lexer.tokens f.text.toList, y.stop = m.site.stop
  tight : m.site.start = x.start ∧ m.site.stop = x.stop ∨
    x.token.isLiteral = true ∧ m.site.Wraps x

namespace Layout

variable {l : Layout} (hl : l.Ordered) {x : Lexeme} {j : Nat} {m : Mark}

include hl

theorem Hits.isOn (h : l.Hits x.token j m) (hx : l.lexemes[j]? = some x) : m.IsOn l.file x := by
  obtain ⟨a, b, haj, hjb, hb, hsite, htight⟩ := h
  rw [length_tokens] at hb
  obtain ⟨hj, rfl⟩ := Array.getElem?_eq_some_iff.mp hx
  rw [site_eq hl (Nat.lt_of_le_of_lt haj hjb) hb] at hsite
  have hmem : ∀ k (hk : k < l.lexemes.size), l.lexemes[k] ∈ Lexer.tokens l.file.text.toList :=
    fun k hk => by
      rw [← show l.lexemes.toList = _ from hl]
      exact Array.getElem_mem_toList hk
  refine ⟨by rw [hsite], ⟨_, hmem a (by omega), by rw [hsite]⟩,
    ⟨_, hmem (b - 1) (by omega), by rw [hsite]⟩, ?_⟩
  rw [hsite]
  rcases htight with ⟨rfl, rfl⟩ | ⟨hliteral, ha, hb', hopen, hclose⟩
  · exact .inl ⟨rfl, rfl⟩
  refine .inr ⟨hliteral, ?_, ?_, fun y hy hstart hstop => ?_⟩
  · exact Nat.lt_of_lt_of_le (start_lt_stop_at hl _) (stop_le_start_at hl ha hj)
  · exact Nat.lt_of_le_of_lt (stop_le_start_at hl (show j < b - 1 by omega) _)
      (start_lt_stop_at hl (by omega))
  rw [← show l.lexemes.toList = _ from hl, Array.mem_toList_iff] at hy
  obtain ⟨k, hk, rfl⟩ := Array.mem_iff_getElem.mp hy
  have hlt := start_lt_stop_at hl hk
  have htoken : l.tokens[k]? = some l.lexemes[k].token := by simp [tokens, hk]
  have hak : a ≤ k := by
    by_contra hka
    have hle := stop_le_start_at hl (Nat.lt_of_not_le hka) (by omega)
    exact absurd (show l.lexemes[a].start ≤ l.lexemes[k].start from hstart) (by omega)
  have hkb : k < b := by
    by_contra hbk
    have hle := stop_le_start_at hl (show b - 1 < k by omega) hk
    exact absurd (show l.lexemes[k].stop ≤ l.lexemes[b - 1].stop from hstop) (by omega)
  rcases Nat.lt_trichotomy k j with hkj | rfl | hjk
  · have hparen := hopen k hak hkj
    rw [htoken, Option.some.injEq] at hparen
    exact .inr (.inl ⟨stop_le_start_at hl hkj hj, hparen⟩)
  · exact .inl rfl
  · have hparen := hclose k hjk hkb
    rw [htoken, Option.some.injEq, Option.some.injEq] at hparen
    exact .inr (.inr ⟨stop_le_start_at hl hjk hk, hparen⟩)

end Layout

namespace Tree

variable {t : Tree} (h : t.Parsed) {u : NodeId} (hu : u ∈ t.units)

include h hu

theorem marksAt_shown {fuel : Nat} (hfuel : u < fuel) (s : Surroundings) :
    List.Forall₂ (Mark.IsOn (t.site u).file) (t.site u).file.shown (marksAt t fuel s u) := by
  obtain ⟨l, ds, rfl, hparse, hshown⟩ := h.highlighted u hu
  have hstrung := hshown.strung t (.refl t) fuel hfuel s
  have hhits := Layout.forall₂_of_strung hstrung (.all _) (List.forall_mem_nil _)
  rw [Layout.tokens, List.zipIdx_map, List.filter_map, List.forall₂_map_left_iff] at hhits
  have hangles : (t.site u).file.angles = Surface.Decl.allAngles ds := by rw [File.angles, hparse]
  rw [show (Layout.ofFile (t.site u).file).lexemes.toList = _ from Layout.ordered_ofFile _] at hhits
  rw [File.shown, hangles, List.forall₂_map_left_iff]
  refine ((List.forall₂_and_left _ _).mpr ⟨fun x hx => ?_, hhits⟩).imp
    fun x m hx => hx.2.isOn (Layout.ordered_ofFile _) hx.1
  rw [← Array.getElem?_toList, show (Layout.ofFile _).lexemes.toList = _ from
    Layout.ordered_ofFile _]
  exact List.mk_mem_zipIdx_iff_getElem?.mp (List.mem_of_mem_filter hx)

theorem angle_of_mem_angles : ∀ i ∈ (t.site u).file.angles,
    ∃ x, (Lexer.tokens (t.site u).file.text.toList)[i]? = some x ∧
      (x.token = .op "<" ∨ x.token = .op ">") := by
  obtain ⟨l, ds, rfl, hparse, hshown⟩ := h.highlighted u hu
  intro i hi
  rw [File.angles, hparse] at hi
  have hstrung := hshown.strung t (.refl t) _ (Nat.lt_succ_self u) ⟨false, false, .value⟩
  obtain ⟨j, k, rfl, hk, hangle⟩ := Layout.angle_of_strung hstrung i hi
  rw [Layout.tokens, Layout.ordered_ofFile, List.getElem?_map, Option.map_eq_some_iff] at hk
  obtain ⟨x, hx, rfl⟩ := hk
  exact ⟨x, by rwa [Nat.zero_add], hangle⟩

end Tree

end LanguageService
