import LanguageService.Surface.Grammar

namespace LanguageService.Surface.Parser

variable {α β : Type}

def Reads (p : Parser α) (ts : List Token) (good : α → Prop) (rest : List Token) : Prop :=
  ∀ pos r, ∃ a r', p ⟨ts ++ rest, pos⟩ r = (some (a, ⟨rest, pos + ts.length⟩), r') ∧ good a

def Refuses (p : Parser α) (ts : List Token) : Prop :=
  ∀ pos r, ∃ r', p ⟨ts, pos⟩ r = (none, r')

theorem Reads.mono {p : Parser α} {ts rest : List Token} {good fine : α → Prop}
    (h : Reads p ts good rest) (hgood : ∀ a, good a → fine a) : Reads p ts fine rest := by
  intro pos r
  obtain ⟨a, r', ha, hg⟩ := h pos r
  exact ⟨a, r', ha, hgood a hg⟩

theorem reads_pure {a : α} {good : α → Prop} {rest : List Token} (h : good a) :
    Reads (pure a) [] good rest := by
  intro pos r
  exact ⟨a, r, rfl, h⟩

theorem bind_apply (p : Parser α) (f : α → Parser β) (c : Cursor) (r : Refusal) :
    (p >>= f) c r =
      match p c r with
      | (some (a, c'), r') => f a c' r'
      | (none, r') => (none, r') := rfl

theorem Reads.bind {p : Parser α} {f : α → Parser β} {ts us rest : List Token}
    {good : α → Prop} {fine : β → Prop} (hp : Reads p ts good (us ++ rest))
    (hf : ∀ a, good a → Reads (f a) us fine rest) : Reads (p >>= f) (ts ++ us) fine rest := by
  intro pos r
  obtain ⟨a, r₁, ha, hgood⟩ := hp pos r
  obtain ⟨b, r₂, hb, hfine⟩ := hf a hgood (pos + ts.length) r₁
  refine ⟨b, r₂, ?_, hfine⟩
  rw [List.append_assoc, bind_apply, ha, List.length_append, ← Nat.add_assoc]
  exact hb

theorem Reads.map {p : Parser α} {f : α → β} {ts rest : List Token} {good : α → Prop}
    {fine : β → Prop} (hp : Reads p ts good rest) (hf : ∀ a, good a → fine (f a)) :
    Reads (do let a ← p; return f a) ts fine rest := by
  have h : Reads (do let a ← p; return f a) (ts ++ []) fine rest :=
    Reads.bind hp fun a ha => reads_pure (hf a ha)
  rwa [List.append_nil] at h

theorem Refuses.bind {p : Parser α} {f : α → Parser β} {ts : List Token} (hp : Refuses p ts) :
    Refuses (p >>= f) ts := by
  intro pos r
  obtain ⟨r', h⟩ := hp pos r
  exact ⟨r', by rw [bind_apply, h]⟩

theorem Reads.refuses {p : Parser α} {f : α → Parser β} {ts us : List Token} {good : α → Prop}
    (hp : Reads p ts good us) (hf : ∀ a, Refuses (f a) us) : Refuses (p >>= f) (ts ++ us) := by
  intro pos r
  obtain ⟨a, r₁, ha, -⟩ := hp pos r
  obtain ⟨r₂, hb⟩ := hf a (pos + ts.length) r₁
  exact ⟨r₂, by rw [bind_apply, ha]; exact hb⟩

theorem refuses_fail (ts : List Token) : Refuses (fail : Parser α) ts := fun _ r => ⟨r, rfl⟩

theorem Reads.orElse {p q : Parser α} {ts rest : List Token} {good : α → Prop}
    (hp : Reads p ts good rest) : Reads (orElse p q) ts good rest := by
  intro pos r
  obtain ⟨a, r', h, ha⟩ := hp pos r
  exact ⟨a, r', by simp only [Parser.orElse, h], ha⟩

theorem Refuses.orElse {p q : Parser α} {ts rest : List Token} {good : α → Prop}
    (hp : Refuses p (ts ++ rest)) (hq : Reads q ts good rest) :
    Reads (orElse p q) ts good rest := by
  intro pos r
  obtain ⟨r₁, h₁⟩ := hp pos r
  obtain ⟨a, r₂, h₂, ha⟩ := hq pos r₁
  exact ⟨a, r₂, by simp only [Parser.orElse, h₁, h₂], ha⟩

theorem refuses_orElse {p q : Parser α} {ts : List Token} (hp : Refuses p ts)
    (hq : Refuses q ts) : Refuses (orElse p q) ts := by
  intro pos r
  obtain ⟨r₁, h₁⟩ := hp pos r
  obtain ⟨r₂, h₂⟩ := hq pos r₁
  exact ⟨r₂, by simp only [Parser.orElse, h₁, h₂]⟩

theorem Reads.choice {p : Parser α} {ps : List (Parser α)} {ts rest : List Token}
    {good : α → Prop} (hp : Reads p ts good rest) : Reads (choice (p :: ps)) ts good rest :=
  hp.orElse

theorem Refuses.choice {p : Parser α} {ps : List (Parser α)} {ts rest : List Token}
    {good : α → Prop} (hp : Refuses p (ts ++ rest)) (hps : Reads (choice ps) ts good rest) :
    Reads (choice (p :: ps)) ts good rest :=
  hp.orElse hps

theorem refuses_choice {ps : List (Parser α)} {ts : List Token} (h : ∀ p ∈ ps, Refuses p ts) :
    Refuses (choice ps) ts := by
  induction ps with
  | nil => exact refuses_fail ts
  | cons p ps ih =>
      exact refuses_orElse (h p (by simp)) (ih fun q hq => h q (by simp [hq]))

theorem reads_optional {p : Parser α} {ts rest : List Token} {good : α → Prop}
    {fine : Option α → Prop} (hp : Reads p ts good rest) (hf : ∀ a, good a → fine (some a)) :
    Reads (optional p) ts fine rest :=
  (hp.map hf).orElse

theorem reads_optional_none {p : Parser α} {rest : List Token} {fine : Option α → Prop}
    (hp : Refuses p rest) (hf : fine none) : Reads (optional p) [] fine rest :=
  Refuses.orElse hp.bind (reads_pure hf)

theorem reads_spanned {p : Parser (Span → α)} {ts rest : List Token} {fine : α → Prop}
    (hp : Reads p ts (fun f => ∀ s, fine (f s)) rest) : Reads (spanned p) ts fine rest := by
  intro pos r
  obtain ⟨f, r', h, hf⟩ := hp pos r
  exact ⟨f ⟨pos, pos + ts.length⟩, r', by simp only [spanned, h], hf _⟩

theorem refuses_spanned {p : Parser (Span → α)} {ts : List Token} (hp : Refuses p ts) :
    Refuses (spanned p) ts := by
  intro pos r
  obtain ⟨r', h⟩ := hp pos r
  exact ⟨r', by simp only [spanned, h]⟩

theorem reads_token {accept : Token → Span → Option α} {t : Token} {rest : List Token}
    {good : α → Prop} (h : ∀ s, ∃ a, accept t s = some a ∧ good a) :
    Reads (token accept) [t] good rest := by
  intro pos r
  obtain ⟨a, ha, hgood⟩ := h ⟨pos, pos + 1⟩
  exact ⟨a, r, by simp [token, ha], hgood⟩

theorem refuses_token {accept : Token → Span → Option α} {ts : List Token}
    (h : ∀ t ∈ ts.head?, ∀ s, accept t s = none) : Refuses (token accept) ts := by
  intro pos r
  cases ts with
  | nil => exact ⟨_, rfl⟩
  | cons t ts =>
      have ht := h t (by simp) ⟨pos, pos + 1⟩
      exact ⟨r.offer ⟨pos + 1, ⟨pos, pos + 1⟩⟩, by simp only [token, ht]⟩

theorem manyUpTo_succ (p : Parser α) (n : Nat) (c : Cursor) (r : Refusal) :
    manyUpTo p (n + 1) c r =
      match p c r with
      | (some (a, c'), r') => (do return a :: (← manyUpTo p n)) c' r'
      | (none, r') => (some ([], c), r') := rfl

variable {ι γ : Type} {p : Parser α} {print : ι → List Token} {view : α → γ} {key : ι → γ}
  {rest : List Token}

theorem reads_manyUpTo (hrest : Refuses p rest) (xs : List ι)
    (hxs : ∀ x ys, x :: ys <:+ xs →
      Reads p (print x) (fun a => view a = key x) (ys.flatMap print ++ rest))
    (n : Nat) (hn : xs.length ≤ n) :
    Reads (manyUpTo p n) (xs.flatMap print) (fun as => as.map view = xs.map key) rest := by
  induction xs generalizing n with
  | nil =>
      intro pos r
      cases n with
      | zero => exact ⟨[], r, rfl, rfl⟩
      | succ n =>
          obtain ⟨r', h⟩ := hrest pos r
          exact ⟨[], r', by simp [manyUpTo_succ, h], rfl⟩
  | cons x xs ih =>
      intro pos r
      cases n with
      | zero => simp at hn
      | succ n =>
          obtain ⟨a, r₁, ha, hview⟩ := hxs x xs List.suffix_rfl pos r
          have hmore := ih (fun y ys hys => hxs y ys (hys.trans (List.suffix_cons x xs))) n
            (by simpa using hn)
          obtain ⟨as, r₂, has, hall⟩ := hmore (pos + (print x).length) r₁
          refine ⟨a :: as, r₂, ?_, by simp [hview, hall]⟩
          rw [List.flatMap_cons, List.append_assoc, manyUpTo_succ, ha]
          simp only [bind_apply, has]
          rw [List.length_append, ← Nat.add_assoc]
          rfl

theorem length_le_flatMap (xs : List ι) (h : ∀ x ∈ xs, print x ≠ []) :
    xs.length ≤ (xs.flatMap print).length := by
  induction xs with
  | nil => simp
  | cons x xs ih =>
      have hx : 0 < (print x).length := List.length_pos_iff.mpr (h x (by simp))
      have hxs := ih fun y hy => h y (List.mem_cons_of_mem x hy)
      rw [List.flatMap_cons, List.length_append, List.length_cons]
      omega

theorem reads_many (xs : List ι) (hrest : Refuses p rest) (hnil : ∀ x ∈ xs, print x ≠ [])
    (hxs : ∀ x ys, x :: ys <:+ xs →
      Reads p (print x) (fun a => view a = key x) (ys.flatMap print ++ rest)) :
    Reads (many p) (xs.flatMap print) (fun as => as.map view = xs.map key) rest := by
  intro pos r
  refine reads_manyUpTo hrest xs hxs _ ?_ pos r
  have h := length_le_flatMap xs hnil
  simp only [List.length_append]
  omega

theorem reads_between {left right : Parser Unit} {l t : Token} {ts : List Token}
    {good : α → Prop} (hl : Reads left [l] (fun _ => True) (ts ++ [t] ++ rest))
    (hp : Reads p ts good ([t] ++ rest)) (hr : Reads right [t] (fun _ => True) rest) :
    Reads (between left right p) (l :: (ts ++ [t])) good rest := by
  have hlast (a : α) (ha : good a) : Reads (do right; return a) [t] good rest :=
    hr.map fun _ _ => ha
  have h : Reads (between left right p) ([l] ++ (ts ++ [t])) good rest :=
    Reads.bind hl fun _ _ => Reads.bind hp hlast
  exact h

theorem refuses_between {left right : Parser Unit} {ts : List Token} (hl : Refuses left ts) :
    Refuses (between left right p) ts := hl.bind

end LanguageService.Surface.Parser
