import LanguageService.Proofs.SpelledExpr

namespace LanguageService

namespace Token

def isShown : Token → Bool
  | punct _ => false
  | keyword .kwUnderscore => false
  | _ => true

def isLiteral : Token → Bool
  | float _ => true
  | int _ => true
  | string _ => true
  | keyword .kwTrue => true
  | keyword .kwFalse => true
  | _ => false

theorem isShown_of_isLiteral {t : Token} (h : t.isLiteral = true) : t.isShown = true := by
  cases t with
  | keyword k => cases k <;> first | rfl | cases h
  | _ => first | rfl | cases h

end Token

namespace Surface

open Spelling

/-- Items have the tokens from number `i` on for their own, one after another. The tokens between
them are not shown, or are the angle brackets whose numbers are listed. -/
inductive Strung {α : Type} (Q : α → Nat → List Token → List Nat → Prop) :
    Nat → List Token → List Nat → List α → Prop where
  | nil {i : Nat} : Strung Q i [] [] []
  | hidden {i : Nat} {t : Token} {ts : List Token} {as : List Nat} {es : List α}
      (ht : t.isShown = false) (hrest : Strung Q (i + 1) ts as es) : Strung Q i (t :: ts) as es
  | angle {i : Nat} {t : Token} {ts : List Token} {as : List Nat} {es : List α}
      (ht : t = .op "<" ∨ t = .op ">") (hrest : Strung Q (i + 1) ts as es) :
      Strung Q i (t :: ts) (i :: as) es
  | item {i : Nat} {us vs : List Token} {as bs : List Nat} {e : α} {es : List α}
      (he : Q e i us as) (hrest : Strung Q (i + us.length) vs bs es) :
      Strung Q i (us ++ vs) (as ++ bs) (e :: es)

def spelt {α : Type} (P : α → Spelling) (f : α → List Nat) (e : α) (i : Nat) (ts : List Token)
    (as : List Nat) : Prop :=
  P e i ts ∧ as = f e

abbrev plainly {α : Type} (P : α → Spelling) : α → Nat → List Token → List Nat → Prop :=
  spelt P fun _ => []

namespace Strung

variable {α β : Type} {Q : α → Nat → List Token → List Nat → Prop} {i : Nat} {t : Token}
  {ts us vs : List Token} {as bs : List Nat} {e : α} {es es' : List α}

theorem one (he : Q e i ts as) : Strung Q i ts as [e] := by
  simpa using Strung.item he .nil

theorem append (h : Strung Q i us as es) (h' : Strung Q (i + us.length) vs bs es') :
    Strung Q i (us ++ vs) (as ++ bs) (es ++ es') := by
  induction h with
  | nil => exact h'
  | hidden ht _ ih => exact .hidden ht (ih (by simpa [Nat.add_assoc, Nat.add_comm 1] using h'))
  | angle ht _ ih => exact .angle ht (ih (by simpa [Nat.add_assoc, Nat.add_comm 1] using h'))
  | item he _ ih =>
      rw [List.append_assoc, List.append_assoc]
      exact .item he (ih (by simpa [Nat.add_assoc] using h'))

theorem after_hidden (h : Strung Q i us as es) (ht : t.isShown = false) :
    Strung Q i (us ++ [t]) as es := by
  have hgap : Strung Q (i + us.length) [t] [] [] := .hidden ht .nil
  simpa using h.append hgap

theorem after_maybe (h : Strung Q i us as es) (ht : t.isShown = false)
    (hvs : vs = [] ∨ vs = [t]) : Strung Q i (us ++ vs) as es := by
  rcases hvs with rfl | rfl
  · rwa [List.append_nil]
  · exact h.after_hidden ht

theorem bind {R : β → Nat → List Token → List Nat → Prop} {g : α → List β}
    (h : Strung Q i ts as es)
    (hg : ∀ e ∈ es, ∀ j us bs, Q e j us bs → Strung R j us bs (g e)) :
    Strung R i ts as (es.flatMap g) := by
  induction h with
  | nil => exact .nil
  | hidden ht _ ih => exact .hidden ht (ih hg)
  | angle ht _ ih => exact .angle ht (ih hg)
  | item he _ ih =>
      exact (hg _ List.mem_cons_self _ _ _ he).append
        (ih fun e he => hg e (List.mem_cons_of_mem _ he))

theorem mono {R : α → Nat → List Token → List Nat → Prop} (h : Strung Q i ts as es)
    (hR : ∀ e ∈ es, ∀ j us bs, Q e j us bs → Strung R j us bs [e]) : Strung R i ts as es := by
  simpa using h.bind hR

theorem angle_token (h : Strung Q i ts as es)
    (hQ : ∀ e j us bs, Q e j us bs → bs = []) :
    ∀ a ∈ as, ∃ j k, a = i + j ∧ ts[j]? = some k ∧ (k = .op "<" ∨ k = .op ">") := by
  induction h with
  | nil => exact List.forall_mem_nil _
  | hidden _ _ ih =>
      intro a ha
      obtain ⟨j, k, rfl, hk⟩ := ih a ha
      exact ⟨j + 1, k, by omega, hk⟩
  | angle ht _ ih =>
      refine List.forall_mem_cons.mpr ⟨⟨0, _, rfl, rfl, ht⟩, fun a ha => ?_⟩
      obtain ⟨j, k, rfl, hk⟩ := ih a ha
      exact ⟨j + 1, k, by omega, hk⟩
  | @item i us vs bs cs e es he _ ih =>
      intro a ha
      rw [hQ _ _ _ _ he, List.nil_append] at ha
      obtain ⟨j, k, rfl, hk⟩ := ih a ha
      refine ⟨us.length + j, k, by omega, ?_⟩
      rwa [List.getElem?_append_right (Nat.le_add_right _ _), Nat.add_sub_cancel_left]

end Strung

section Lists

variable {α : Type} {P : α → Spelling} {f : α → List Nat} {i : Nat} {ts : List Token} {es : List α}

theorem strung_all (h : all (es.map P) i ts) : Strung (spelt P f) i ts (es.flatMap f) es := by
  induction es generalizing i ts with
  | nil =>
      obtain rfl : ts = [] := h
      exact .nil
  | cons e es ih =>
      obtain ⟨us, vs, rfl, he, hes⟩ := h
      exact .item ⟨he, rfl⟩ (ih hes)

theorem strung_items (h : items (es.map P) i ts) : Strung (spelt P f) i ts (es.flatMap f) es := by
  rw [items, List.map_map] at h
  have hitems := strung_all (P := fun e => P e ++ maybe (.punct .semi)) (f := f) h
  refine hitems.mono fun e _ j us bs he => ?_
  obtain ⟨⟨us, vs, rfl, he, hvs⟩, rfl⟩ := he
  exact (Strung.one ⟨he, rfl⟩).after_maybe rfl hvs

theorem strung_plainly (h : Strung (spelt P fun _ => []) i ts (es.flatMap fun _ => []) es) :
    Strung (plainly P) i ts [] es := by
  rwa [List.flatMap_eq_nil_iff.mpr fun _ _ => rfl] at h

theorem plain_all (h : all (es.map P) i ts) : Strung (plainly P) i ts [] es :=
  strung_plainly (strung_all h)

theorem plain_items (h : items (es.map P) i ts) : Strung (plainly P) i ts [] es :=
  strung_plainly (strung_items h)

theorem plain_commas (h : all ((es.map P).map commaThen) i ts) :
    Strung (plainly P) i ts [] es := by
  rw [List.map_map] at h
  have hitems := plain_all (P := fun e => commaThen (P e)) h
  refine hitems.mono fun e _ j us bs he => ?_
  obtain ⟨⟨_, vs, rfl, rfl, he⟩, rfl⟩ := he
  exact .hidden rfl (.one ⟨he, rfl⟩)

theorem plain_listed (h : listed (es.map P) i ts) : Strung (plainly P) i ts [] es := by
  cases es with
  | nil =>
      obtain rfl : ts = [] := h
      exact .nil
  | cons e es =>
      obtain ⟨us, vs, rfl, he, hes⟩ := h
      exact .item ⟨he, rfl⟩ (plain_commas hes)

theorem plain_listedTrailing (h : listedTrailing (es.map P) i ts) :
    Strung (plainly P) i ts [] es := by
  cases es with
  | nil =>
      obtain rfl : ts = [] := h
      exact .nil
  | cons e es =>
      obtain ⟨us, vs, rfl, hes, hvs⟩ := h
      have hlisted : Strung (plainly P) i us [] (e :: es) := plain_listed hes
      exact hlisted.after_maybe rfl hvs

theorem strung_between {Q : α → Nat → List Token → List Nat → Prop} {P : Spelling} {l r : Token}
    {as : List Nat} (h : (word l ++ P ++ word r) i ts) (hl : l.isShown = false)
    (hr : r.isShown = false) (hP : ∀ j us, P j us → Strung Q j us as es) :
    Strung Q i ts as es := by
  obtain ⟨_, _, rfl, ⟨_, us, rfl, rfl, hus⟩, rfl⟩ := h
  exact Strung.after_hidden (.hidden hl (hP _ us hus)) hr

end Lists

def genericAngles (gs : List Name) : List Nat :=
  gs.head?.toList.map (·.span.start - 1) ++ gs.getLast?.toList.map (·.span.stop)

mutual

def Decl.angles : Decl → List Nat
  | .space _ _ _ ms => Decl.allAngles ms
  | .product _ _ _ gs ms => genericAngles gs ++ Decl.allAngles ms
  | .extension _ _ _ ms => Decl.allAngles ms
  | .conformance _ _ _ _ ms => Decl.allAngles ms
  | .trait _ _ _ ms => Decl.allAngles ms
  | .function _ _ _ gs _ _ _ => genericAngles gs
  | _ => []

def Decl.allAngles : List Decl → List Nat
  | [] => []
  | d :: ds => d.angles ++ Decl.allAngles ds

end

theorem Decl.allAngles_eq_flatMap (ds : List Decl) :
    Decl.allAngles ds = ds.flatMap Decl.angles := by
  induction ds with
  | nil => rfl
  | cons d ds ih => rw [Decl.allAngles, ih, List.flatMap_cons]

theorem stop_of_listed {xs : List Name} {i : Nat} {ts : List Token}
    (h : listed (xs.map Name.spelled) i ts) : ∀ x ∈ xs.getLast?, x.span.stop = i + ts.length := by
  cases xs with
  | nil => simp
  | cons x xs =>
      obtain ⟨us, vs, rfl, hx, hxs⟩ := h
      induction xs generalizing x i us vs with
      | nil =>
          obtain rfl : vs = [] := hxs
          simp [hx.1]
      | cons y ys ih =>
          obtain ⟨_, ws, rfl, ⟨_, us', rfl, rfl, hy⟩, hys⟩ := hxs
          rw [List.getLast?_cons_cons]
          have hlast := ih y (i := i + us.length + 1) us' ws hy
            (by simpa [Nat.add_assoc, Nat.add_comm 1] using hys)
          simpa [Nat.add_assoc, Nat.add_comm 1] using hlast

theorem strung_generics {gs : List Name} {i : Nat} {ts : List Token}
    (h : genericsSpelled gs i ts) : Strung (plainly Name.spelled) i ts (genericAngles gs) gs := by
  cases gs with
  | nil =>
      obtain rfl : ts = [] := h
      exact .nil
  | cons x xs =>
      obtain ⟨_, _, rfl, ⟨_, us, rfl, rfl, hus⟩, rfl⟩ := h
      have hnames : Strung (plainly Name.spelled) (i + 1) us [] (x :: xs) := plain_listed hus
      have hstart : x.span.start = i + 1 := by
        obtain ⟨_, _, -, hx, -⟩ := hus
        rw [hx.1]
        rfl
      have hstop : ∀ y ∈ (x :: xs).getLast?, y.span.stop = i + 1 + us.length := stop_of_listed hus
      have hangles : genericAngles (x :: xs) = i :: [i + 1 + us.length] := by
        obtain ⟨y, hy⟩ := Option.isSome_iff_exists.mp (List.getLast?_isSome.mpr
          (List.cons_ne_nil x xs))
        simp [genericAngles, hy, hstart, hstop y hy]
      have hclose : Strung (plainly Name.spelled) (i + 1 + us.length) [.op ">"]
          [i + 1 + us.length] [] := .angle (.inr rfl) .nil
      rw [hangles]
      simpa using Strung.angle (.inl rfl) (hnames.append hclose)

end Surface

end LanguageService
