import LanguageService.Proofs.Lexemes
import LanguageService.Proofs.SpelledWithin
import LanguageService.Tree.Parse

namespace LanguageService

structure Site.Includes (s s' : Site) : Prop where
  file : s'.file = s.file
  start : s.start ≤ s'.start
  stop : s'.stop ≤ s.stop

theorem Site.Includes.refl (s : Site) : s.Includes s := ⟨rfl, Nat.le_refl _, Nat.le_refl _⟩

theorem Site.Includes.trans {s s₁ s₂ : Site} (h : s.Includes s₁) (h' : s₁.Includes s₂) :
    s.Includes s₂ :=
  ⟨h'.file.trans h.file, Nat.le_trans h.start h'.start, Nat.le_trans h'.stop h.stop⟩

theorem Site.Includes.isSynthesized_eq {s s' : Site} (h : s.Includes s') :
    s'.isSynthesized = s.isSynthesized := by
  rw [isSynthesized, h.file, isSynthesized]

theorem Site.Includes.size_le {s s' : Site} (h : s.Includes s') : s'.size ≤ s.size := by
  have hstart := h.start
  have hstop := h.stop
  rw [size, size]
  omega

def Site.StartsToken (s : Site) : Prop :=
  ∃ x ∈ Lexer.tokens s.file.text.toList, x.start = s.start

def Token.isName : Token → Bool
  | ident _ => true
  | op _ => true
  | keyword .kwSelf => true
  | _ => false

namespace Layout

def tokens (l : Layout) : List Token := l.lexemes.toList.map (·.token)

theorem length_tokens (l : Layout) : l.tokens.length = l.lexemes.size := by
  simp [tokens]

def Ordered (l : Layout) : Prop := l.lexemes.toList = Lexer.tokens l.file.text.toList

theorem ordered_ofFile (f : File) : (ofFile f).Ordered := by simp [Ordered, ofFile]

theorem Ordered.pairwise {l : Layout} (h : l.Ordered) :
    l.lexemes.toList.Pairwise fun x y => x.stop ≤ y.start := by
  rw [show l.lexemes.toList = _ from h]
  exact Lexer.tokens_pairwise l.file.text.toList

theorem Ordered.stands {l : Layout} (h : l.Ordered) {x : Lexeme} (hx : x ∈ l.lexemes) :
    Lexer.StandsIn l.file.text.toList x := by
  refine Lexer.standsIn_of_mem_tokens ?_
  rwa [← show l.lexemes.toList = _ from h, Array.mem_toList_iff]

variable {l : Layout} {a b c d : Nat}

theorem token_of_holds {t : Token} (h : Surface.Holds l.tokens a [t]) (ha : a < l.lexemes.size) :
    l.lexemes[a].token = t := by
  obtain ⟨before, after, htokens, rfl⟩ := h
  have hget : l.tokens[before.length]? = some t := by simp [htokens]
  simpa [tokens, ha] using hget

section Ordered

variable (h : l.Ordered)

include h

theorem start_lt_stop_at (ha : a < l.lexemes.size) : l.lexemes[a].start < l.lexemes[a].stop :=
  (h.stands (Array.getElem_mem ha)).start_lt_stop

theorem stop_le_start_at (hab : a < b) (hb : b < l.lexemes.size) :
    l.lexemes[a].stop ≤ l.lexemes[b].start := by
  have hpairwise := List.pairwise_iff_getElem.mp h.pairwise a b (by simpa using by omega)
    (by simpa using hb) hab
  simpa using hpairwise

theorem start_le_start_at (hab : a ≤ b) (hb : b < l.lexemes.size) :
    l.lexemes[a].start ≤ l.lexemes[b].start := by
  rcases Nat.lt_or_eq_of_le hab with hab | rfl
  · exact Nat.le_trans (Nat.le_of_lt (start_lt_stop_at h (by omega))) (stop_le_start_at h hab hb)
  · exact Nat.le_refl _

theorem stop_le_stop_at (hab : a ≤ b) (hb : b < l.lexemes.size) :
    l.lexemes[a].stop ≤ l.lexemes[b].stop := by
  rcases Nat.lt_or_eq_of_le hab with hab | rfl
  · exact Nat.le_trans (stop_le_start_at h hab hb) (Nat.le_of_lt (start_lt_stop_at h hb))
  · exact Nat.le_refl _

theorem site_eq (hab : a < b) (hb : b ≤ l.lexemes.size) :
    l.site ⟨a, b⟩ = ⟨l.file, l.lexemes[a].start, l.lexemes[b - 1].stop⟩ := by
  have hle : l.lexemes[a].start ≤ l.lexemes[b - 1].stop :=
    Nat.le_trans (Nat.le_of_lt (start_lt_stop_at h _)) (stop_le_stop_at h (by omega) _)
  have ha : a < l.lexemes.size := by omega
  have hb' : b - 1 < l.lexemes.size := by omega
  simp [site, byteSpan, hab, ha, hb', Nat.max_eq_left hle]

theorem includes_site (hca : c ≤ a) (hab : a < b) (hbd : b ≤ d) (hd : d ≤ l.tokens.length) :
    (l.site ⟨c, d⟩).Includes (l.site ⟨a, b⟩) := by
  rw [length_tokens] at hd
  rw [site_eq h (by omega) hd, site_eq h hab (by omega)]
  exact ⟨rfl, start_le_start_at h hca _, stop_le_stop_at h (by omega) _⟩

theorem site_stop_le_start (hab : a < b) (hbc : b ≤ c) (hcd : c < d) (hd : d ≤ l.tokens.length) :
    (l.site ⟨a, b⟩).stop ≤ (l.site ⟨c, d⟩).start := by
  rw [length_tokens] at hd
  rw [site_eq h hab (by omega), site_eq h hcd hd]
  exact stop_le_start_at h (by omega) _

theorem site_start_lt_stop (hab : a < b) (hb : b ≤ l.tokens.length) :
    (l.site ⟨a, b⟩).start < (l.site ⟨a, b⟩).stop := by
  rw [length_tokens] at hb
  rw [site_eq h hab hb]
  exact Nat.lt_of_lt_of_le (start_lt_stop_at h _) (stop_le_stop_at h (by omega) _)

theorem startsToken_site (hab : a < b) (hb : b ≤ l.tokens.length) :
    (l.site ⟨a, b⟩).StartsToken := by
  rw [length_tokens] at hb
  rw [site_eq h hab hb]
  exact ⟨_, h ▸ Array.getElem_mem_toList (by omega), rfl⟩

theorem whole_includes_site (hab : a < b) (hb : b ≤ l.tokens.length) :
    (Site.whole l.file).Includes (l.site ⟨a, b⟩) := by
  rw [length_tokens] at hb
  rw [site_eq h hab hb]
  exact ⟨rfl, Nat.zero_le _, (h.stands (Array.getElem_mem _)).stop_le⟩

theorem isSynthesized_of_tokens (ha : 0 < l.tokens.length) : l.file.isSynthesized = false := by
  rw [length_tokens] at ha
  have hstop := (h.stands (Array.getElem_mem ha)).stop_le
  have hlt := start_lt_stop_at h ha
  cases hf : l.file with
  | document uri text => rfl
  | synthesized =>
      have hnone : l.lexemes[0].stop ≤ 0 := by simpa [hf, File.text] using hstop
      omega

theorem text_site {t : Token} (hheld : Surface.Holds l.tokens a [t]) (ht : t.isError = false) :
    (l.site ⟨a, a + 1⟩).text = t.display := by
  have ha : a < l.lexemes.size := by
    rw [← length_tokens]
    exact hheld.le
  have htoken := token_of_holds hheld ha
  rw [site_eq h (Nat.lt_succ_self a) ha, ← htoken]
  exact (h.stands (Array.getElem_mem _)).site_text rfl (by rwa [htoken])

theorem not_keyword {t : Token} (hheld : Surface.Holds l.tokens a [t]) (ht : t.isName = true) :
    t.isError = false ∧ (Keyword.ofSpelling t.display = none ∨ t.display = "self") := by
  have ha : a < l.lexemes.size := by
    rw [← length_tokens]
    exact hheld.le
  obtain ⟨before, w, after, -, -, -, hpicks⟩ := h.stands (Array.getElem_mem ha)
  rw [token_of_holds hheld ha] at hpicks
  cases t with
  | ident x => exact ⟨rfl, .inl hpicks.ident_not_keyword⟩
  | op x => exact ⟨rfl, .inl hpicks.op_not_keyword⟩
  | keyword k =>
      cases k with
      | kwSelf => exact ⟨rfl, .inr rfl⟩
      | _ => cases ht
  | _ => cases ht

end Ordered

end Layout

end LanguageService
