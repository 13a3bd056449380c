import LanguageService.Proofs.SpelledExpr

namespace LanguageService.Surface

def Holds (T : List Token) (i : Nat) (ts : List Token) : Prop :=
  ∃ before after, T = before ++ (ts ++ after) ∧ before.length = i

variable {T ts us : List Token} {i : Nat}

theorem Holds.all (T : List Token) : Holds T 0 T := ⟨[], [], by simp, rfl⟩

theorem Holds.left (h : Holds T i (ts ++ us)) : Holds T i ts := by
  obtain ⟨before, after, htokens, hi⟩ := h
  exact ⟨before, us ++ after, by simpa using htokens, hi⟩

theorem Holds.right (h : Holds T i (ts ++ us)) : Holds T (i + ts.length) us := by
  obtain ⟨before, after, htokens, hi⟩ := h
  exact ⟨before ++ ts, after, by simpa using htokens, by simp [hi]⟩

theorem Holds.tail {t : Token} (h : Holds T i (t :: ts)) : Holds T (i + 1) ts :=
  have hparts : Holds T i ([t] ++ ts) := h
  hparts.right

theorem Holds.le (h : Holds T i ts) : i + ts.length ≤ T.length := by
  obtain ⟨before, after, htokens, rfl⟩ := h
  rw [htokens, List.length_append, List.length_append]
  omega

def Between (T : List Token) (lo hi : Nat) (P : Spelling) : Prop :=
  ∃ a ts, lo ≤ a ∧ a + ts.length ≤ hi ∧ Holds T a ts ∧ P a ts

def Spread {α : Type} (T : List Token) (Q : α → Spelling) : Nat → Nat → List α → Prop
  | lo, hi, [] => lo ≤ hi
  | lo, hi, e :: es => ∃ mid, Between T lo mid (Q e) ∧ Spread T Q mid hi es

section Between

variable {α : Type} {lo hi : Nat} {P Q : Spelling}

theorem Between.le (h : Between T lo hi P) : lo ≤ hi := by
  obtain ⟨a, ts, hlo, hhi, -, -⟩ := h
  omega

theorem Between.widen {lo' hi' : Nat} (h : Between T lo hi P) (hlo : lo' ≤ lo) (hhi : hi ≤ hi') :
    Between T lo' hi' P := by
  obtain ⟨a, ts, hlo', hhi', h⟩ := h
  exact ⟨a, ts, by omega, by omega, h⟩

theorem Between.mono (h : Between T lo hi P) (hPQ : ∀ i ts, P i ts → Q i ts) :
    Between T lo hi Q := by
  obtain ⟨a, ts, hlo, hhi, hheld, hP⟩ := h
  exact ⟨a, ts, hlo, hhi, hheld, hPQ a ts hP⟩

theorem Between.append (h : Between T lo hi (P ++ Q)) :
    ∃ mid, Between T lo mid P ∧ Between T mid hi Q := by
  obtain ⟨a, _, hlo, hhi, hheld, us, vs, rfl, hP, hQ⟩ := h
  rw [List.length_append] at hhi
  exact ⟨a + us.length, ⟨a, us, hlo, Nat.le_refl _, hheld.left, hP⟩,
    ⟨a + us.length, vs, Nat.le_refl _, by omega, hheld.right, hQ⟩⟩

theorem Between.word {t : Token} (h : Between T lo hi (.word t)) : lo < hi := by
  obtain ⟨a, _, hlo, hhi, -, rfl⟩ := h
  simp only [List.length_singleton] at hhi
  omega

theorem Between.spanning {s : Surface.Span} (h : Between T lo hi (.spanning s P)) :
    ∃ a b, s = ⟨a, b⟩ ∧ lo ≤ a ∧ b ≤ hi ∧ b ≤ T.length ∧ Between T a b P := by
  obtain ⟨a, ts, hlo, hhi, hheld, rfl, hP⟩ := h
  exact ⟨a, _, rfl, hlo, hhi, hheld.le, a, ts, Nat.le_refl _, Nat.le_refl _, hheld, hP⟩

theorem Between.inner {t t' : Token} (h : Between T lo hi (.word t ++ P ++ .word t')) :
    lo < hi ∧ Between T lo hi P := by
  obtain ⟨c, h, hright⟩ := h.append
  obtain ⟨b, hleft, hP⟩ := h.append
  have hlo := hleft.word
  have hhi := hright.word
  have hbc := hP.le
  exact ⟨by omega, hP.widen (by omega) (by omega)⟩

theorem Between.layers {n : Nat} (h : Between T lo hi (.layers P n)) : Between T lo hi P := by
  induction n generalizing lo hi with
  | zero => exact h
  | succ n ih =>
      obtain ⟨mid, hlayers, hcomma⟩ := h.inner.2.append
      exact (ih hlayers).widen (Nat.le_refl _) hcomma.le

theorem Between.enclosed (h : Between T lo hi (.enclosed P)) : Between T lo hi P := by
  obtain ⟨a, ts, hlo, hhi, hheld, n, hn⟩ := h
  exact Between.layers ⟨a, ts, hlo, hhi, hheld, hn⟩

theorem Between.of_operand {e : Expr} {k : Nat} (h : Between T lo hi (e.operand e.core k)) :
    Between T lo hi e.spelled :=
  h.mono fun _ _ he => Expr.spelled_of_asOperand he

variable {Q : α → Spelling} {es : List α}

theorem Spread.le (h : Spread T Q lo hi es) : lo ≤ hi := by
  induction es generalizing lo with
  | nil => exact h
  | cons e es ih =>
      obtain ⟨mid, he, hes⟩ := h
      exact Nat.le_trans he.le (ih hes)

theorem Spread.widen {lo' hi' : Nat} (h : Spread T Q lo hi es) (hlo : lo' ≤ lo)
    (hhi : hi ≤ hi') : Spread T Q lo' hi' es := by
  induction es generalizing lo lo' with
  | nil => exact Nat.le_trans hlo (Nat.le_trans h hhi)
  | cons e es ih =>
      obtain ⟨mid, he, hes⟩ := h
      exact ⟨mid, he.widen hlo (Nat.le_refl _), ih hes (Nat.le_refl _)⟩

theorem Spread.mono {Q' : α → Spelling} (h : Spread T Q lo hi es)
    (hQ : ∀ e lo hi, Between T lo hi (Q e) → Between T lo hi (Q' e)) :
    Spread T Q' lo hi es := by
  induction es generalizing lo with
  | nil => exact h
  | cons e es ih =>
      obtain ⟨mid, he, hes⟩ := h
      exact ⟨mid, hQ e _ _ he, ih hes⟩

theorem spread_all (h : Between T lo hi (.all (es.map Q))) : Spread T Q lo hi es := by
  induction es generalizing lo with
  | nil => exact h.le
  | cons e es ih =>
      obtain ⟨mid, he, hes⟩ := h.append
      exact ⟨mid, he, ih hes⟩

theorem spread_items (h : Between T lo hi (.items (es.map Q))) : Spread T Q lo hi es := by
  rw [Spelling.items, List.map_map] at h
  refine (spread_all h).mono fun e lo hi he => ?_
  obtain ⟨mid, he, hsemi⟩ := Between.append (P := Q e) he
  exact he.widen (Nat.le_refl _) hsemi.le

theorem spread_commas (h : Between T lo hi (.all ((es.map Q).map .commaThen))) :
    Spread T Q lo hi es := by
  rw [List.map_map] at h
  refine (spread_all h).mono fun e lo hi he => ?_
  obtain ⟨mid, hcomma, he⟩ := Between.append (Q := Q e) he
  exact he.widen hcomma.le (Nat.le_refl _)

theorem spread_listed (h : Between T lo hi (.listed (es.map Q))) : Spread T Q lo hi es := by
  cases es with
  | nil => exact h.le
  | cons e es =>
      obtain ⟨mid, he, hes⟩ := h.append
      exact ⟨mid, he, spread_commas hes⟩

theorem spread_listedTrailing (h : Between T lo hi (.listedTrailing (es.map Q))) :
    Spread T Q lo hi es := by
  cases es with
  | nil => exact h.le
  | cons e es =>
      obtain ⟨mid, h, hcomma⟩ := h.append
      have hlisted : Spread T Q lo mid (e :: es) := spread_listed h
      exact hlisted.widen (Nat.le_refl _) hcomma.le

theorem spread_optional {o : Option α} (h : Between T lo hi (.optional Q o)) :
    Spread T Q lo hi o.toList := by
  cases o with
  | none => exact h.le
  | some e => exact ⟨hi, h, Nat.le_refl _⟩

end Between

end LanguageService.Surface
