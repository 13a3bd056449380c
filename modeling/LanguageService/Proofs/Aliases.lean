import LanguageService.Proofs.Subjects

/-!
What an alias stands for once the aliases in it have been replaced, and what is left alone of what
is written for aliases while others are worked out.
-/
namespace LanguageService

namespace Kind

def aliased? : Kind → Option NodeId
  | typeAlias _ _ k => some k
  | _ => none

theorem isTypeAlias_of_aliased? {k : Kind} {n : NodeId} (h : k.aliased? = some n) :
    k.isTypeAlias = true := by
  cases k <;> simp_all [aliased?, isTypeAlias]

theorem exists_aliased? {k : Kind} (h : k.isTypeAlias = true) : ∃ n, k.aliased? = some n := by
  cases k <;> simp_all [aliased?, isTypeAlias]

theorem part_of_aliased? {k : Kind} {n : NodeId} (h : k.aliased? = some n) :
    (isType, n) ∈ k.parts := by
  cases k <;> simp_all [aliased?, parts]

theorem isTypeAlias_of_hasSignature {k : Kind} (h : k.hasSignature = true) :
    k.isTypeAlias = false := by
  cases k <;> simp_all [hasSignature, isTypeAlias]

theorem hasSignature_of_isDeclaration {k : Kind} (h : k.isDeclaration = true)
    (halias : k.isTypeAlias = false) : k.hasSignature = true := by
  cases k <;> simp_all [isTypeAlias, hasSignature]

theorem hasSignature_of_isParameter {k : Kind} (h : k.isParameter = true) :
    k.hasSignature = true := by
  cases k <;> simp_all [isParameter, hasSignature, isDeclaration]

theorem isType_of_isTypeAlias {k : Kind} (h : k.isTypeAlias = true) : k.isType = false := by
  cases k <;> simp_all [isType, isTypeAlias]

theorem isTypeAlias_of_isType {k : Kind} (h : k.isType = true) : k.isTypeAlias = false := by
  cases k <;> simp_all [isType, isTypeAlias]

theorem isType_of_isDeclaration {k : Kind} (h : k.isDeclaration = true) : k.isType = false := by
  cases k <;> simp_all [isType, isDeclaration]

end Kind

namespace Tree

def denoted? (t : Tree) (d : NodeId) : Option Ty :=
  match t.kind d with
  | .product _ _ _ _ _ => some (.product d)
  | .trait _ _ _ => some (.trait d)
  | .associated _ _ => some (.parameter d)
  | .generic _ => some (.parameter d)
  | _ => none

theorem denoted?_of_isGeneric {t : Tree} {g : NodeId} (hg : (t.kind g).isGeneric = true) :
    t.denoted? g = some (.parameter g) := by
  rw [denoted?]
  cases hk : t.kind g <;> simp_all [Kind.isGeneric]

theorem aliased?_of_denoted? {t : Tree} {d : NodeId} {ty : Ty} (h : t.denoted? d = some ty) :
    (t.kind d).aliased? = none := by
  rw [denoted?] at h
  cases hk : t.kind d <;> simp_all [Kind.aliased?]

def WrittenFor (t : Tree) (d n : NodeId) : Prop := ∃ k, (t.kind d).aliased? = some k ∧ t.Below k n

section Written

variable {t : Tree} {d n m : NodeId}

theorem WrittenFor.isTypeAlias (h : t.WrittenFor d n) : (t.kind d).isTypeAlias = true := by
  obtain ⟨k, hk, -⟩ := h
  exact Kind.isTypeAlias_of_aliased? hk

theorem WrittenFor.below (h : t.WrittenFor d n) (hm : t.Below n m) : t.WrittenFor d m := by
  obtain ⟨k, hk, hn⟩ := h
  exact ⟨k, hk, hn.trans hm⟩

variable (ht : t.WellFormed)

include ht

theorem WrittenFor.isType (h : t.WrittenFor d n) : (t.kind n).isType = true := by
  obtain ⟨k, hk, hn⟩ := h
  exact isType_of_below ht (ht.fits d _ (Kind.part_of_aliased? hk)) hn

theorem WrittenFor.parent {q : NodeId} (h : t.WrittenFor d n) (hn : n ∈ t.children q) :
    q = d ∨ t.WrittenFor d q := by
  obtain ⟨k, hk, hbelow⟩ := h
  by_cases hne : n = k
  · subst hne
    exact .inl (ht.parent_unique _ _ n hn (child_of_part (Kind.part_of_aliased? hk)))
  · obtain ⟨q', hq', hn'⟩ := hbelow.parent hne
    obtain rfl := ht.parent_unique _ _ n hn hn'
    exact .inr ⟨k, hk, hq'⟩

theorem WrittenFor.unique {d' : NodeId} (h : t.WrittenFor d n) (h' : t.WrittenFor d' n) :
    d = d' := by
  obtain ⟨k, hk, hn⟩ := h
  induction hn with
  | refl =>
      rcases h'.parent ht (child_of_part (Kind.part_of_aliased? hk)) with heq | hd
      · exact heq
      · exact absurd (hd.isType ht)
          (by simp [Kind.isType_of_isTypeAlias (Kind.isTypeAlias_of_aliased? hk)])
  | @tail q n hq hn ih =>
      rcases h'.parent ht hn with rfl | hd
      · have hq : t.WrittenFor d q := ⟨k, hk, hq⟩
        exact absurd (hq.isType ht) (by simp [Kind.isType_of_isTypeAlias h'.isTypeAlias])
      · exact ih hd

theorem not_writtenFor_of_part {q : NodeId} (hn : (Kind.isType, n) ∈ (t.kind q).parts)
    (hq : (t.kind q).isType = false) (hq' : (t.kind q).isTypeAlias = false) :
    ¬ t.WrittenFor d n := by
  intro h
  rcases h.parent ht (child_of_part hn) with rfl | hd
  · simp [h.isTypeAlias] at hq'
  · simp [hd.isType ht] at hq

theorem WrittenFor.of_below (h : t.WrittenFor d m) (hn : (t.kind n).isType = true)
    (hm : t.Below n m) : t.WrittenFor d n := by
  induction hm with
  | refl => exact h
  | tail hq hm ih =>
      rcases h.parent ht hm with rfl | hd
      · exact absurd (isType_of_below ht hn hq) (by simp [Kind.isType_of_isTypeAlias h.isTypeAlias])
      · exact ih hd

end Written

end Tree

namespace Program

/-- The type of which the name at `n` is the name, aliases apart. `Self` refers to nothing and has
the type that has been recorded for it. -/
def named? (p : Program) (n : NodeId) (x : Name) : Option Ty :=
  match p.references.get? n with
  | some (.direct d) => p.tree.denoted? d
  | some (.builtin word) => (Builtin.ofWord word).map .builtin
  | some _ => none
  | none => if x.text = "Self" then p.types.get? n else none

/-- The type that is written at a node, with each alias in it replaced by what is written for the
alias. -/
inductive Expands (p : Program) : NodeId → Ty → Prop where
  | replaced {n d k : NodeId} {x : Name} {ty : Ty} (hn : p.tree.kind n = .nameType x)
      (href : p.references.get? n = some (.direct d)) (hd : (p.tree.kind d).aliased? = some k)
      (hk : Expands p k ty) : Expands p n ty
  | named {n : NodeId} {x : Name} {ty : Ty} (hn : p.tree.kind n = .nameType x)
      (hx : p.named? n x = some ty) : Expands p n ty
  | tuple {n : NodeId} {es : List NodeId} {ts : List Ty} (hn : p.tree.kind n = .tupleType es)
      (hlength : es.length = ts.length) (hes : ∀ q ∈ es.zip ts, Expands p q.1 q.2) :
      Expands p n (.ofElements ts)

/-- In what is written for the alias `a` there is a name that refers to the alias `b`. -/
def Uses (p : Program) (a b : NodeId) : Prop :=
  ∃ n x, p.tree.WrittenFor a n ∧ p.tree.kind n = .nameType x ∧
    p.references.get? n = some (.direct b) ∧ (p.tree.kind b).isTypeAlias = true

variable {p : Program} {n d k : NodeId} {x : Name} {a b : Ty}

theorem named?_of_direct (href : p.references.get? n = some (.direct d)) :
    p.named? n x = p.tree.denoted? d := by
  rw [named?, href]

theorem named?_of_builtin {b : Builtin} (href : p.references.get? n = some (.builtin b.word)) :
    p.named? n x = some (.builtin b) := by
  rw [named?, href]
  simp [Builtin.ofWord_word]

theorem named?_of_self (hself : x.text = "Self") (hnone : p.references.get? n = none) :
    p.named? n x = p.types.get? n := by
  rw [named?, hnone]
  exact if_pos hself

theorem named?_of_aliased? (href : p.references.get? n = some (.direct d))
    (hd : (p.tree.kind d).aliased? = some k) : p.named? n x = none := by
  rw [named?_of_direct href]
  cases hk : p.tree.kind d with
  | typeAlias i y k => simp [Tree.denoted?, hk]
  | _ => simp [hk, Kind.aliased?] at hd

theorem Expands.unique (h : p.Expands n a) (h' : p.Expands n b) : a = b := by
  induction h generalizing b with
  | replaced hn href hd _ ih =>
      cases h' with
      | replaced _ href' hd' hk' =>
          cases href.symm.trans href'
          cases hd.symm.trans hd'
          exact ih hk'
      | named _ hx' => cases (named?_of_aliased? href hd).symm.trans hx'
      | tuple hn' _ _ => cases hn.symm.trans hn'
  | named hn hx =>
      cases h' with
      | replaced _ href' hd' _ => cases (named?_of_aliased? href' hd').symm.trans hx
      | named hn' hx' =>
          cases hn.symm.trans hn'
          exact Option.some.inj (hx.symm.trans hx')
      | tuple hn' _ _ => cases hn.symm.trans hn'
  | @tuple n es ts hn hlength _ ih =>
      cases h' with
      | replaced hn' _ _ _ => cases hn.symm.trans hn'
      | named hn' _ => cases hn.symm.trans hn'
      | @tuple _ es' ts' hn' hlength' hes' =>
          cases hn.symm.trans hn'
          refine congrArg _ (List.ext_getElem (hlength.symm.trans hlength') fun i hi hi' => ?_)
          have hie : i < es.length := hlength ▸ hi
          have hmem : (es[i], ts[i]) ∈ es.zip ts :=
            List.mem_iff_getElem.mpr ⟨i, by simp [hie, hi], List.getElem_zip⟩
          have hmem' : (es[i], ts'[i]) ∈ es.zip ts' :=
            List.mem_iff_getElem.mpr ⟨i, by simp [hie, hi'], List.getElem_zip⟩
          exact ih _ hmem (hes' _ hmem')

theorem Expands.agree {p' : Program} (h : p.Expands n a) (htree : p'.tree = p.tree)
    {R : NodeId → Prop} (hR : ∀ n, R n → p'.references.get? n = p.references.get? n ∧
      p'.types.get? n = p.types.get? n)
    (hchild : ∀ n c, R n → c ∈ p.tree.children n → R c)
    (halias : ∀ n d k x, R n → p.tree.kind n = .nameType x →
      p.references.get? n = some (.direct d) → (p.tree.kind d).aliased? = some k → R k)
    (hn : R n) : p'.Expands n a := by
  induction h with
  | @replaced n d k x ty hx href hd _ ih =>
      rw [← htree] at hx hd
      exact .replaced hx ((hR n hn).1.trans href) hd
        (ih (halias n d k x hn (htree ▸ hx) href (htree ▸ hd)))
  | @named n x ty hx hnamed =>
      rw [← htree] at hx
      refine .named hx ?_
      rwa [named?, (hR n hn).1, (hR n hn).2, htree]
  | @tuple n es ts hes hlength _ ih =>
      refine .tuple (htree ▸ hes) hlength fun q hq => ih q hq (hchild n q.1 hn ?_)
      simpa [Tree.children, hes, Kind.children] using (List.of_mem_zip hq).1

theorem Expands.acc (h : p.Expands n a) {m d : NodeId} (hm : p.tree.Below n m)
    (hx : p.tree.kind m = .nameType x) (href : p.references.get? m = some (.direct d))
    (hd : (p.tree.kind d).isTypeAlias = true) : Acc (Function.swap p.Uses) d := by
  induction h generalizing m d x with
  | @replaced n d' k y ty hn href' hd' _ ih =>
      obtain rfl : m = n := by
        simpa [Tree.children, hn, Kind.children] using Tree.below_iff.mp hm
      cases href.symm.trans href'
      refine ⟨_, ?_⟩
      rintro c ⟨m', z, ⟨k', hk', hm'⟩, hz, href'', hc⟩
      cases hd'.symm.trans hk'
      exact ih hm' hz href'' hc
  | @named n y ty hn hy =>
      obtain rfl : m = n := by
        simpa [Tree.children, hn, Kind.children] using Tree.below_iff.mp hm
      obtain ⟨k, hk⟩ := Kind.exists_aliased? hd
      cases (named?_of_aliased? href hk).symm.trans hy
  | @tuple n es ts hn hlength _ ih =>
      rcases Tree.below_iff.mp hm with rfl | ⟨c, hc, hbelow⟩
      · cases hn.symm.trans hx
      · have hc : c ∈ es := by simpa [Tree.children, hn, Kind.children] using hc
        obtain ⟨i, hi, rfl⟩ := List.mem_iff_getElem.mp hc
        have hi' : i < ts.length := hlength ▸ hi
        have hmem : (es[i], ts[i]) ∈ es.zip ts :=
          List.mem_iff_getElem.mpr ⟨i, by simp [hi, hi'], List.getElem_zip⟩
        exact ih _ hmem hbelow hx href hd

theorem not_transGen_of_acc {r : NodeId → NodeId → Prop} {i : NodeId}
    (h : Acc (Function.swap r) i) : ¬ Relation.TransGen r i i := by
  have hacc := h.transGen
  intro hcycle
  rw [← Relation.transGen_swap] at hcycle
  induction hacc with
  | intro i _ ih => exact ih i hcycle h hcycle

theorem Expands.not_cyclic (h : p.Expands k a) (hd : (p.tree.kind d).aliased? = some k) :
    ¬ Relation.TransGen p.Uses d d := by
  refine not_transGen_of_acc ⟨_, fun c ⟨m, x, ⟨k', hk', hm⟩, hx, href, hc⟩ => ?_⟩
  cases hd.symm.trans hk'
  exact h.acc hm hx href hc

end Program

end LanguageService
