import LanguageService.Proofs.Unfolding
import Mathlib.Data.List.Chain

namespace LanguageService.Surface

def saysFixity : Token → Bool
  | .ident x => (Fixity.ofWord x).isSome
  | _ => false

def Admits (t u : Token) : Prop := t = .keyword .kwOperator → saysFixity u = true

def Orderly (ts : List Token) : Prop := ts.IsChain Admits

structure Settled (ts : List Token) : Prop where
  orderly : Orderly ts
  last : ts.getLast? ≠ some (.keyword .kwOperator)

theorem Orderly.left {ts us : List Token} (h : Orderly (ts ++ us)) : Orderly ts :=
  List.IsChain.left_of_append h

theorem Orderly.right {ts us : List Token} (h : Orderly (ts ++ us)) : Orderly us :=
  List.IsChain.right_of_append h

theorem settled_nil : Settled [] := ⟨.nil, by simp⟩

theorem settled_singleton {t : Token} (h : t ≠ .keyword .kwOperator) : Settled [t] :=
  ⟨.singleton t, by simpa using h⟩

theorem Settled.append {ts us : List Token} (hts : Settled ts) (hus : Settled us) :
    Settled (ts ++ us) := by
  constructor
  · refine List.isChain_append.mpr ⟨hts.orderly, hus.orderly, fun t ht u _ hoperator => ?_⟩
    exact absurd (hoperator ▸ ht) hts.last
  · cases us with
    | nil => rw [List.append_nil]; exact hts.last
    | cons u us => rw [List.getLast?_append_of_ne_nil ts (List.cons_ne_nil u us)]; exact hus.last

namespace Cursor

def stop (c : Cursor) : Nat := c.pos + c.rest.length

def before (c : Cursor) (post : List Token) : Cursor := ⟨c.rest ++ post, c.pos⟩

theorem before_nil (c : Cursor) : c.before [] = c := by rw [before, List.append_nil]

def Reaches (c c' : Cursor) : Prop :=
  ∃ ts, c.rest = ts ++ c'.rest ∧ c'.pos = c.pos + ts.length ∧ Settled ts

namespace Reaches

variable {c c₁ c' : Cursor}

theorem refl (c : Cursor) : c.Reaches c := ⟨[], rfl, rfl, settled_nil⟩

theorem trans (h : c.Reaches c₁) (h' : c₁.Reaches c') : c.Reaches c' := by
  obtain ⟨ts, hrest, hpos, hts⟩ := h
  obtain ⟨us, hrest', hpos', hus⟩ := h'
  refine ⟨ts ++ us, by rw [hrest, hrest', List.append_assoc], ?_, hts.append hus⟩
  rw [hpos', hpos, List.length_append, Nat.add_assoc]

theorem stop_eq (h : c.Reaches c') : c'.stop = c.stop := by
  obtain ⟨ts, hrest, hpos, -⟩ := h
  rw [stop, stop, hrest, hpos, List.length_append, Nat.add_assoc]

theorem length_le (h : c.Reaches c') : c'.rest.length ≤ c.rest.length := by
  obtain ⟨ts, hrest, -⟩ := h
  rw [hrest, List.length_append]
  exact Nat.le_add_left _ _

theorem orderly (h : c.Reaches c') (hc : Orderly c.rest) : Orderly c'.rest := by
  obtain ⟨ts, hrest, -⟩ := h
  rw [hrest] at hc
  exact hc.right

end Reaches

end Cursor

namespace Refusal

theorem new_pos_le_offer (old new : Refusal) : new.pos ≤ (old.offer new).pos := by
  rw [offer]
  split
  · exact Nat.le_refl _
  · exact Nat.le_of_not_lt ‹_›

theorem offer_blames (old : Refusal) {new : Refusal} {n : Nat} (h : new.span.start < n) :
    old.offer new = old ∨ (old.offer new).span.start < n := by
  rw [offer]
  split
  · exact .inr h
  · exact .inl rfl

/-- The token to blame is one of the first `n`, or their end. It is the last token or the end if the
refusal is as far as that. -/
structure Blames (n : Nat) (r : Refusal) : Prop where
  pos_le : r.pos ≤ n
  start_le : r.span.start ≤ n
  last : r.pos = n → r.span = ⟨n, n⟩ ∨ r.span.start + 1 = n ∧ r.span.stop = n

theorem blames_start (n : Nat) : start.Blames n :=
  ⟨Nat.zero_le n, Nat.zero_le n, fun h => .inl (by rw [← h]; rfl)⟩

theorem Blames.offer {n : Nat} {old new : Refusal} (hold : old.Blames n) (hnew : new.Blames n) :
    (old.offer new).Blames n := by
  rw [Refusal.offer]
  split
  · exact hnew
  · exact hold

structure Leads (c : Cursor) (r r' : Refusal) : Prop where
  pos_le : Orderly c.rest → r.pos ≤ r'.pos
  blames : r.Blames c.stop → r'.Blames c.stop

namespace Leads

variable {c c' : Cursor} {r r₁ r' : Refusal}

theorem refl (c : Cursor) (r : Refusal) : Leads c r r := ⟨fun _ => Nat.le_refl _, id⟩

theorem trans (h : Leads c r r₁) (hc : c.Reaches c') (h' : Leads c' r₁ r') : Leads c r r' := by
  refine ⟨fun horderly => ?_, fun hblames => ?_⟩
  · exact Nat.le_trans (h.pos_le horderly) (h'.pos_le (hc.orderly horderly))
  · have hlater := h'.blames
    rw [hc.stop_eq] at hlater
    exact hlater (h.blames hblames)

theorem offer {new : Refusal} (hnew : new.Blames c.stop) : Leads c r (r.offer new) :=
  ⟨fun _ => pos_le_offer r new, fun h => h.offer hnew⟩

end Leads

end Refusal

namespace Parser

variable {α β : Type}

/-- Whatever comes behind the tokens left at `c`, the result of `p` is `o`, and none of what comes
behind is to blame. -/
def Decides (p : Parser α) (c : Cursor) (o : Option (α × Cursor)) : Prop :=
  ∀ post r, ∃ r', p (c.before post) r = (o.map fun x => (x.1, x.2.before post), r') ∧
    (r' = r ∨ r'.span.start < c.stop)

def Stays (p : Parser α) (c : Cursor) : Prop := ∃ o, Decides p c o

/-- The tokens left at `c` are the beginning of something that `p` accepts if `F` holds of what
comes then. Without more tokens `p` misses some at the end. -/
def Completes (F : List Token → Prop) (p : Parser α) (c : Cursor) : Prop :=
  ∃ more, (∀ after, F after → ∀ r, ∃ a r',
    p (c.before (more ++ after)) r = (some (a, ⟨after, c.stop + more.length⟩), r')) ∧
      ∀ r, Orderly c.rest → c.stop ≤ (p c r).2.pos

structure Guided (L : Nat) (F : List Token → Prop) (p : Parser α) : Prop where
  reaches : ∀ c r a c' r', c.rest.length < L → p c r = (some (a, c'), r') → c.Reaches c'
  leads : ∀ c r, c.rest.length < L → Refusal.Leads c r (p c r).2
  steady : ∀ c, c.rest.length < L → Stays p c ∨ Completes F p c

structure Viable (L : Nat) (F : List Token → Prop) (us : List Token) (p : Parser α) : Prop
    extends Guided L F p where
  reads : ∀ after, F after → Reads p us (fun _ => True) after

def anything : List Token → Prop := fun _ => True

variable {p q : Parser α} {f : α → Parser β} {L M n : Nat} {F F₁ : List Token → Prop}
  {us vs : List Token}

section Deciding

variable {c c₁ : Cursor} {a : α}

theorem Decides.now {o : Option (α × Cursor)} (h : Decides p c o) (r : Refusal) :
    ∃ r', p c r = (o, r') ∧ (r' = r ∨ r'.span.start < c.stop) := by
  obtain ⟨r', hr, hr'⟩ := h [] r
  refine ⟨r', ?_, hr'⟩
  rw [c.before_nil] at hr
  rw [hr]
  cases o with
  | none => rfl
  | some x => simp [Cursor.before_nil]

theorem Decides.bind_none (h : Decides p c none) : Decides (p >>= f) c none := by
  intro post r
  obtain ⟨r', hr, hr'⟩ := h post r
  exact ⟨r', by rw [bind_apply, hr]; rfl, hr'⟩

theorem Decides.bind_some {o : Option (β × Cursor)} (h : Decides p c (some (a, c₁)))
    (hstop : c₁.stop = c.stop) (hrest : Decides (f a) c₁ o) : Decides (p >>= f) c o := by
  intro post r
  obtain ⟨r₁, hr₁, hblames⟩ := h post r
  obtain ⟨r', hr, hblames'⟩ := hrest post r₁
  rw [hstop] at hblames'
  refine ⟨r', by rw [bind_apply, hr₁]; exact hr, ?_⟩
  rcases hblames' with rfl | hblames'
  · exact hblames
  · exact .inr hblames'

theorem Decides.completes_bind (h : Decides p c (some (a, c₁))) (hreach : c.Reaches c₁)
    (hrest : Completes F (f a) c₁) : Completes F (p >>= f) c := by
  obtain ⟨more, hreads, hlooks⟩ := hrest
  rw [hreach.stop_eq] at hreads hlooks
  refine ⟨more, fun after hafter r => ?_, fun r horderly => ?_⟩
  · obtain ⟨r₁, hr₁, -⟩ := h (more ++ after) r
    obtain ⟨b, r', hr⟩ := hreads after hafter r₁
    exact ⟨b, r', by rw [bind_apply, hr₁]; exact hr⟩
  · obtain ⟨r₁, hr₁, -⟩ := h.now r
    rw [bind_apply, hr₁]
    exact hlooks r₁ (hreach.orderly horderly)

theorem Decides.orElse_some {x : α × Cursor} (h : Decides p c (some x)) :
    Decides (orElse p q) c (some x) := by
  intro post r
  obtain ⟨r', hr, hr'⟩ := h post r
  exact ⟨r', by rw [Parser.orElse, hr]; rfl, hr'⟩

theorem Decides.orElse_none {o : Option (α × Cursor)} (h : Decides p c none)
    (hrest : Decides q c o) : Decides (orElse p q) c o := by
  intro post r
  obtain ⟨r₁, hr₁, hblames⟩ := h post r
  obtain ⟨r', hr, hblames'⟩ := hrest post r₁
  refine ⟨r', by rw [Parser.orElse, hr₁]; exact hr, ?_⟩
  rcases hblames' with rfl | hblames'
  · exact hblames
  · exact .inr hblames'

theorem Decides.completes_orElse (h : Decides p c none) (hrest : Completes F q c) :
    Completes F (orElse p q) c := by
  obtain ⟨more, hreads, hlooks⟩ := hrest
  refine ⟨more, fun after hafter r => ?_, fun r horderly => ?_⟩
  · obtain ⟨r₁, hr₁, -⟩ := h (more ++ after) r
    obtain ⟨a, r', hr⟩ := hreads after hafter r₁
    exact ⟨a, r', by rw [Parser.orElse, hr₁]; exact hr⟩
  · obtain ⟨r₁, hr₁, -⟩ := h.now r
    rw [Parser.orElse, hr₁]
    exact hlooks r₁ horderly

end Deciding

theorem Guided.mono (h : Guided L F₁ p) (hF : ∀ after, F after → F₁ after) : Guided L F p := by
  refine ⟨h.reaches, h.leads, fun c hc => (h.steady c hc).imp_right ?_⟩
  rintro ⟨more, hreads, hlooks⟩
  exact ⟨more, fun after hafter => hreads after (hF after hafter), hlooks⟩

theorem Viable.mono (h : Viable L F₁ us p) (hF : ∀ after, F after → F₁ after) : Viable L F us p :=
  ⟨h.toGuided.mono hF, fun after hafter => h.reads after (hF after hafter)⟩

theorem Guided.fewer (h : Guided M F p) (hL : L ≤ M) : Guided L F p :=
  ⟨fun c r a c' r' hc => h.reaches c r a c' r' (Nat.lt_of_lt_of_le hc hL),
    fun c r hc => h.leads c r (Nat.lt_of_lt_of_le hc hL),
    fun c hc => h.steady c (Nat.lt_of_lt_of_le hc hL)⟩

theorem Viable.fewer (h : Viable M F us p) (hL : L ≤ M) : Viable L F us p :=
  ⟨h.toGuided.fewer hL, h.reads⟩

theorem guided_zero : Guided 0 F p :=
  ⟨fun _ _ _ _ _ hc => absurd hc (Nat.not_lt_zero _),
    fun _ _ hc => absurd hc (Nat.not_lt_zero _), fun _ hc => absurd hc (Nat.not_lt_zero _)⟩

theorem guided_fail : Guided L F (fail : Parser α) where
  reaches := fun _ _ _ _ _ _ h => by cases h
  leads := fun c r _ => .refl c r
  steady := fun c _ => .inl ⟨none, fun _ r => ⟨r, rfl, .inl rfl⟩⟩

theorem viable_pure {a : α} : Viable L F [] (pure a : Parser α) where
  reaches := fun c r b c' r' _ h => by
    cases h
    exact .refl c
  leads := fun c r _ => .refl c r
  steady := fun c _ => .inl ⟨some (a, c), fun _ r => ⟨r, rfl, .inl rfl⟩⟩
  reads := fun _ _ => reads_pure trivial

theorem token_leads (accept : Token → Span → Option α) (c : Cursor) (r : Refusal) :
    Refusal.Leads c r (token accept c r).2 := by
  rw [token]
  split
  · next hrest =>
      have hstop : c.stop = c.pos := by rw [Cursor.stop, hrest]; rfl
      exact .offer ⟨Nat.le_of_eq hstop.symm, Nat.le_of_eq hstop.symm,
        fun _ => .inl (by rw [hstop])⟩
  · next u rest hrest =>
      have hstop : c.stop = c.pos + (rest.length + 1) := by rw [Cursor.stop, hrest]; rfl
      split
      · exact .refl c r
      · refine .offer ⟨?_, ?_, fun h => .inr ⟨h, h⟩⟩ <;> simp only <;> omega

theorem token_steady {accept : Token → Span → Option α} {t : Token}
    (ht : ∀ s, ∃ a, accept t s = some a) (c : Cursor) :
    Stays (token accept) c ∨ Completes anything (token accept) c := by
  cases hrest : c.rest with
  | nil =>
      refine .inr ⟨[t], fun after _ r => ?_, fun r _ => ?_⟩
      · obtain ⟨a, ha⟩ := ht ⟨c.pos, c.pos + 1⟩
        refine ⟨a, r, ?_⟩
        simp [token, Cursor.before, hrest, ha, Cursor.stop]
      · have hstop : c.stop = c.pos := by rw [Cursor.stop, hrest]; rfl
        rw [token, hrest, hstop]
        exact r.new_pos_le_offer ⟨c.pos, ⟨c.pos, c.pos⟩⟩
  | cons u rest =>
      have hlt : c.pos < c.stop := by
        rw [Cursor.stop, hrest, List.length_cons]
        omega
      cases haccept : accept u ⟨c.pos, c.pos + 1⟩ with
      | some a =>
          refine .inl ⟨some (a, ⟨rest, c.pos + 1⟩), fun post r => ⟨r, ?_, .inl rfl⟩⟩
          simp [token, Cursor.before, hrest, haccept]
      | none =>
          refine .inl ⟨none, fun post r => ⟨r.offer ⟨c.pos + 1, ⟨c.pos, c.pos + 1⟩⟩, ?_, ?_⟩⟩
          · simp [token, Cursor.before, hrest, haccept]
          · exact r.offer_blames hlt

theorem viable_token {accept : Token → Span → Option α} {t : Token}
    (ht : ∀ s, ∃ a, accept t s = some a)
    (hoperator : ∀ s, accept (.keyword .kwOperator) s = none) :
    Viable L anything [t] (token accept) where
  reaches := fun c r a c' r' _ h => by
    rw [token] at h
    split at h
    · cases h
    · next u rest hrest =>
        split at h
        · next b hb =>
            cases h
            refine ⟨[u], hrest, rfl, settled_singleton ?_⟩
            rintro rfl
            simp [hoperator] at hb
        · cases h
  leads := fun c r _ => token_leads accept c r
  steady := fun c _ => token_steady ht c
  reads := fun after _ => reads_token fun s => by
    obtain ⟨a, ha⟩ := ht s
    exact ⟨a, ha, trivial⟩

theorem Guided.bindWithin (hp : Guided M F₁ p)
    (hlands : ∀ c r a c' r', c.rest.length < M → p c r = (some (a, c'), r') → c'.rest.length < L)
    (hf : ∀ a, Viable L F us (f a)) (hF : ∀ after, F after → F₁ (us ++ after)) :
    Guided M F (p >>= f) where
  reaches := fun c r b c' r' hc h => by
    rw [bind_apply] at h
    split at h
    · next a c₁ r₁ ha =>
        have hlt := hlands c r a c₁ r₁ hc ha
        exact (hp.reaches c r a c₁ r₁ hc ha).trans ((hf a).reaches c₁ r₁ b c' r' hlt h)
    · cases h
  leads := fun c r hc => by
    have hfirst := hp.leads c r hc
    rw [bind_apply]
    split
    · next a c₁ r₁ ha =>
        rw [ha] at hfirst
        have hlt := hlands c r a c₁ r₁ hc ha
        exact hfirst.trans (hp.reaches c r a c₁ r₁ hc ha) ((hf a).leads c₁ r₁ hlt)
    · next r₁ hnone =>
        rw [hnone] at hfirst
        exact hfirst
  steady := fun c hc => by
    rcases hp.steady c hc with ⟨o, ho⟩ | ⟨more, hreads, hlooks⟩
    · cases o with
      | none => exact .inl ⟨none, ho.bind_none⟩
      | some x =>
          obtain ⟨a, c₁⟩ := x
          obtain ⟨r₀, hnow, -⟩ := ho.now .start
          have hreach := hp.reaches c _ a c₁ r₀ hc hnow
          rcases (hf a).steady c₁ (hlands c _ a c₁ r₀ hc hnow) with ⟨o', ho'⟩ | hcompletes
          · exact .inl ⟨o', ho.bind_some hreach.stop_eq ho'⟩
          · exact .inr (ho.completes_bind hreach hcompletes)
    · refine .inr ⟨more ++ us, fun after hafter r => ?_, fun r horderly => ?_⟩
      · obtain ⟨a, r₁, hr₁⟩ := hreads (us ++ after) (hF after hafter) r
        obtain ⟨b, r', hr, -⟩ := (hf a).reads after hafter (c.stop + more.length) r₁
        refine ⟨b, r', ?_⟩
        rw [bind_apply, List.append_assoc, hr₁, List.length_append, ← Nat.add_assoc]
        exact hr
      · have hfirst := hlooks r horderly
        rw [bind_apply]
        split
        · next a c₁ r₁ ha =>
            rw [ha] at hfirst
            have hreach := hp.reaches c r a c₁ r₁ hc ha
            have hlater := (hf a).leads c₁ r₁ (hlands c r a c₁ r₁ hc ha)
            exact Nat.le_trans hfirst (hlater.pos_le (hreach.orderly horderly))
        · next r₁ hnone =>
            rw [hnone] at hfirst
            exact hfirst

theorem Guided.bind (hp : Guided L F₁ p) (hf : ∀ a, Viable L F us (f a))
    (hF : ∀ after, F after → F₁ (us ++ after)) : Guided L F (p >>= f) :=
  hp.bindWithin (fun c r a c' r' hc h =>
    Nat.lt_of_le_of_lt (hp.reaches c r a c' r' hc h).length_le hc) hf hF

theorem Viable.bind (hp : Viable L F₁ us p) (hf : ∀ a, Viable L F vs (f a))
    (hF : ∀ after, F after → F₁ (vs ++ after)) : Viable L F (us ++ vs) (p >>= f) :=
  ⟨hp.toGuided.bind hf hF, fun after hafter => (hp.reads _ (hF after hafter)).bind fun a _ =>
    (hf a).reads after hafter⟩

theorem Viable.next (hp : Viable L anything us p) (hf : ∀ a, Viable L F vs (f a)) :
    Viable L F (us ++ vs) (p >>= f) := hp.bind hf fun _ _ => trivial

theorem Guided.next (hp : Viable L anything vs p) (hf : ∀ a, Viable L F us (f a)) :
    Guided L F (p >>= f) := hp.toGuided.bind hf fun _ _ => trivial

theorem Guided.map {k : α → β} (hp : Guided L F p) : Guided L F (do let a ← p; return k a) :=
  hp.bind (fun _ => viable_pure) fun _ hafter => hafter

theorem Guided.after (hp : Guided (L + 1) F₁ p) (ht : Takes 1 p) (hf : ∀ a, Viable L F us (f a))
    (hF : ∀ after, F after → F₁ (us ++ after)) : Guided (L + 1) F (p >>= f) :=
  hp.bindWithin (fun c r a c' r' hc h => by
    have hlt := ht c r a c' r' h
    omega) hf hF

theorem Viable.after (hp : Viable (L + 1) anything us p) (ht : Takes 1 p)
    (hf : ∀ a, Viable L F vs (f a)) : Viable (L + 1) F (us ++ vs) (p >>= f) :=
  ⟨hp.toGuided.after ht hf fun _ _ => trivial, fun after hafter =>
    (hp.reads _ trivial).bind fun a _ => (hf a).reads after hafter⟩

theorem Viable.last (hp : Viable L F us p) (hf : ∀ a, Viable L F [] (f a)) :
    Viable L F us (p >>= f) := by
  have h := hp.bind hf fun after hafter => hafter
  rwa [List.append_nil] at h

theorem Viable.map {k : α → β} (hp : Viable L F us p) :
    Viable L F us (do let a ← p; return k a) := hp.last fun _ => viable_pure

theorem Guided.orElse (hp : Guided L F p) (hq : Guided L F q) : Guided L F (orElse p q) where
  reaches := fun c r a c' r' hc h => by
    rw [Parser.orElse] at h
    split at h
    · next x r₁ hx =>
        cases h
        exact hp.reaches c r a c' r' hc hx
    · next r₁ _ => exact hq.reaches c r₁ a c' r' hc h
  leads := fun c r hc => by
    have hfirst := hp.leads c r hc
    rw [Parser.orElse]
    split
    · next hx =>
        rw [hx] at hfirst
        exact hfirst
    · next r₁ hnone =>
        rw [hnone] at hfirst
        exact hfirst.trans (.refl c) (hq.leads c r₁ hc)
  steady := fun c hc => by
    rcases hp.steady c hc with ⟨o, ho⟩ | ⟨more, hreads, hlooks⟩
    · cases o with
      | some x => exact .inl ⟨some x, ho.orElse_some⟩
      | none =>
          rcases hq.steady c hc with ⟨o', ho'⟩ | hcompletes
          · exact .inl ⟨o', ho.orElse_none ho'⟩
          · exact .inr (ho.completes_orElse hcompletes)
    · refine .inr ⟨more, fun after hafter r => ?_, fun r horderly => ?_⟩
      · obtain ⟨a, r', hr⟩ := hreads after hafter r
        exact ⟨a, r', by rw [Parser.orElse, hr]⟩
      · have hfirst := hlooks r horderly
        rw [Parser.orElse]
        split
        · next hx => rwa [hx] at hfirst
        · next r₁ hnone =>
            rw [hnone] at hfirst
            exact Nat.le_trans hfirst ((hq.leads c r₁ hc).pos_le horderly)

theorem Viable.orElse (hp : Viable L F us p) (hq : Guided L F q) :
    Viable L F us (orElse p q) :=
  ⟨hp.toGuided.orElse hq, fun after hafter => (hp.reads after hafter).orElse⟩

theorem Viable.optional (hp : Viable L F us p) : Viable L F us (optional p) :=
  hp.map.orElse viable_pure.toGuided

theorem Viable.optional_none (hp : Viable L F us p) (hF : ∀ after, F after → Refuses p after) :
    Viable L F [] (Parser.optional p) :=
  ⟨hp.optional.toGuided, fun after hafter => reads_optional_none (hF after hafter) trivial⟩

theorem Guided.spanned {p : Parser (Span → α)} (hp : Guided L F p) : Guided L F (spanned p) where
  reaches := fun c r a c' r' hc h => by
    rw [Parser.spanned] at h
    split at h
    · next k c₁ r₁ hk =>
        cases h
        exact hp.reaches c r k c' r' hc hk
    · cases h
  leads := fun c r hc => by
    have hfirst := hp.leads c r hc
    rw [Parser.spanned]
    split <;> next h => rwa [h] at hfirst
  steady := fun c hc => by
    rcases hp.steady c hc with ⟨o, ho⟩ | ⟨more, hreads, hlooks⟩
    · refine .inl ⟨o.map fun x => (x.1 ⟨c.pos, x.2.pos⟩, x.2), fun post r => ?_⟩
      obtain ⟨r', hr, hr'⟩ := ho post r
      refine ⟨r', ?_, hr'⟩
      rw [Parser.spanned, hr]
      cases o <;> rfl
    · refine .inr ⟨more, fun after hafter r => ?_, fun r horderly => ?_⟩
      · obtain ⟨k, r', hr⟩ := hreads after hafter r
        exact ⟨_, r', by rw [Parser.spanned, hr]⟩
      · have hfirst := hlooks r horderly
        rw [Parser.spanned]
        split <;> next h => rwa [h] at hfirst

theorem Viable.spanned {p : Parser (Span → α)} (hp : Viable L F us p) :
    Viable L F us (spanned p) :=
  ⟨hp.toGuided.spanned, fun after hafter =>
    reads_spanned ((hp.reads after hafter).mono fun _ _ _ => trivial)⟩

theorem Guided.many (hp : Guided L F₁ p) (ht : Takes 1 p)
    (hF : ∀ after, F after → F₁ after ∧ Refuses p after) : Viable L F [] (many p) := by
  have hreads (after : List Token) (hafter : F after) :
      Reads (Parser.many p) [] (fun _ => True) after := by
    rw [many_eq ht]
    exact Refuses.orElse (hF after hafter).2.bind (reads_pure trivial)
  refine ⟨?_, hreads⟩
  induction L with
  | zero => exact guided_zero
  | succ L ih =>
      have hrest : Viable L F [] (Parser.many p) := ⟨ih (hp.fewer (Nat.le_succ L)), hreads⟩
      rw [many_eq ht]
      exact .orElse (hp.after ht (fun _ => hrest.map) fun after hafter => (hF after hafter).1)
        viable_pure.toGuided

theorem Viable.many1 (hp : Viable L F₁ us p) (ht : Takes 1 p)
    (hF : ∀ after, F after → F₁ after ∧ Refuses p after) : Viable L F us (many1 p) :=
  (hp.mono fun after hafter => (hF after hafter).1).last fun _ => (hp.toGuided.many ht hF).map

section Separated

variable {sep : Parser Unit} (hsep : Viable L anything vs sep) (ht : Takes 1 sep)
  (hp : Viable L F us p) (htp : Takes 0 p) (hF : ∀ after, F after → Refuses sep after)

include hsep ht hp htp hF

theorem Viable.separators : Viable L F [] (Parser.many (do sep; p)) :=
  (hsep.next fun _ => hp).toGuided.many (ht.then fun _ => htp) fun after hafter =>
    ⟨hafter, (hF after hafter).bind⟩

theorem Viable.separated1 : Viable L F us (separated1 p sep) :=
  hp.last fun _ => (separators hsep ht hp htp hF).map

theorem Viable.separatedTrailing : Viable L F us (separatedTrailing p sep) := by
  have hlast := (hsep.mono fun _ _ => trivial).optional_none hF
  exact .orElse (hp.last fun _ => (separators hsep ht hp htp hF).last fun _ => hlast.map)
    viable_pure.toGuided

end Separated

theorem Viable.between {left right : Parser Unit} {l t : List Token}
    (hl : Viable (L + 1) anything l left) (ht : Takes 1 left) (hp : Viable L F₁ us p)
    (hr : Viable L anything t right) (hF : ∀ after, F₁ (t ++ after)) :
    Viable (L + 1) anything (l ++ (us ++ t)) (between left right p) :=
  hl.after ht fun _ => hp.bind (fun _ => hr.map) fun after _ => hF after

end Parser

end LanguageService.Surface
