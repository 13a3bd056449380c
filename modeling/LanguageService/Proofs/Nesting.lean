import LanguageService.Proofs.Lowered
import LanguageService.Proofs.Placement
import LanguageService.Tree.Walk

namespace LanguageService

inductive Piece where
  | word (s : Site) (text : String)
  | name (x : Name)
  | part (i : NodeId)

namespace Piece

def mark? : Piece → Option Site
  | word s _ => some s
  | _ => none

def name? : Piece → Option Name
  | name x => some x
  | _ => none

def part? : Piece → Option NodeId
  | part i => some i
  | _ => none

def site (t : Tree) : Piece → Site
  | word s _ => s
  | name x => x.site
  | part i => t.site i

def Spelled : Piece → Prop
  | word s w => s.text = w
  | name x => x.site.text = x.text ∧ (Keyword.ofSpelling x.text = none ∨ x.text = "self")
  | part _ => True

def ofArg (a : Option Name × NodeId) : List Piece := a.1.toList.map name ++ [part a.2]

section FilterMap

variable (is : List NodeId) (xs : List Name) (as : List (Option Name × NodeId))

theorem parts_of_parts : (is.map part).filterMap part? = is := by
  simp [List.filterMap_map, Function.comp_def, part?]

theorem parts_of_names : (xs.map name).filterMap part? = [] := by
  simp [List.filterMap_eq_nil_iff, part?]

theorem names_of_parts : (is.map part).filterMap name? = [] := by
  simp [List.filterMap_eq_nil_iff, name?]

theorem names_of_names : (xs.map name).filterMap name? = xs := by
  simp [List.filterMap_map, Function.comp_def, name?]

theorem marks_of_parts : (is.map part).filterMap mark? = [] := by
  simp [List.filterMap_eq_nil_iff, mark?]

theorem marks_of_names : (xs.map name).filterMap mark? = [] := by
  simp [List.filterMap_eq_nil_iff, mark?]

theorem marks_of_words (ss : List Site) (text : String) :
    (ss.map (word · text)).filterMap mark? = ss := by
  simp [List.filterMap_map, Function.comp_def, mark?]

theorem parts_of_words (ss : List Site) (text : String) :
    (ss.map (word · text)).filterMap part? = [] := by
  simp [List.filterMap_eq_nil_iff, part?]

theorem names_of_words (ss : List Site) (text : String) :
    (ss.map (word · text)).filterMap name? = [] := by
  simp [List.filterMap_eq_nil_iff, name?]

theorem parts_of_args : (as.flatMap ofArg).filterMap part? = as.map (·.2) := by
  induction as with
  | nil => rfl
  | cons a as ih =>
      rcases a with ⟨_ | x, i⟩ <;>
        simpa [List.flatMap_cons, List.filterMap_append, List.filterMap_cons, ofArg, part?] using ih

theorem names_of_args : (as.flatMap ofArg).filterMap name? = as.filterMap (·.1) := by
  induction as with
  | nil => rfl
  | cons a as ih =>
      rcases a with ⟨_ | x, i⟩ <;>
        simpa [List.flatMap_cons, List.filterMap_append, List.filterMap_cons, ofArg, name?] using ih

theorem marks_of_args : (as.flatMap ofArg).filterMap mark? = [] := by
  induction as with
  | nil => rfl
  | cons a as ih =>
      rcases a with ⟨_ | x, i⟩ <;>
        simpa [List.flatMap_cons, List.filterMap_append, List.filterMap_cons, ofArg, mark?] using ih

end FilterMap

end Piece

namespace Kind

def pieces : Kind → List Piece
  | module _ units => units.map .part
  | unit decls => decls.map .part
  | space s x members => .word s "namespace" :: .name x :: members.map .part
  | product s x generics members _ =>
      .word s "type" :: .name x :: (generics ++ members).map .part
  | extension s subject members => .word s "extension" :: .part subject :: members.map .part
  | conformance s subject traits members =>
      .word s "conformance" :: .part subject :: (traits ++ members).map .part
  | trait s x members => .word s "trait" :: .name x :: members.map .part
  | associated s x => [.word s "type", .name x]
  | typeAlias s x aliased => [.word s "typealias", .name x, .part aliased]
  | operator s f s' x => [.word s "operator", .word s' (Surface.Fixity.print f).display, .name x]
  | function s x generics parameters output body =>
      .word s "fun" :: .name x ::
        (generics ++ parameters ++ output.toList ++ body.toList).map .part
  | method s x generics parameters output variants =>
      .word s "fun" :: .name x :: (generics ++ parameters ++ output.toList ++ variants).map .part
  | variant s e body => [.word s (Surface.Effect.print e).display, .part body]
  | init s parameters body _ => .word s "init" :: (parameters ++ body.toList).map .part
  | subscript s x parameters output body =>
      .word s "subscript" :: (x.toList.map .name ++ (parameters ++ output :: body.toList).map .part)
  | binding pattern initializer => .part pattern :: initializer.toList.map .part
  | var x => [.name x]
  | parameter x ascription => .name x :: ascription.toList.map .part
  | generic x => [.name x]
  | int _ => []
  | float _ => []
  | string _ => []
  | bool _ => []
  | name domain x => domain.toList.map .part ++ [.name x]
  | call callee args => .part callee :: args.flatMap Piece.ofArg
  | subscriptCall callee args => .part callee :: args.flatMap Piece.ofArg
  | binary lhs op rhs => [.part lhs, .name op, .part rhs]
  | tuple elements => elements.map .part
  | nameType x => [.name x]
  | tupleType elements => elements.map .part
  | brace stmts => stmts.map .part
  | ret s value => .word s "return" :: value.toList.map .part
  | expr e => [.part e]
  | assign lhs rhs => [.part lhs, .part rhs]
  | loop s condition body => [.word s "while", .part condition, .part body]
  | cond s condition success s' failure =>
      .word s "if" :: .part condition :: .part success ::
        (s'.toList.map (.word · "else") ++ failure.toList.map .part)
  | decl d => [.part d]
  | bindingPattern s how subpattern ascription =>
      .word s (Surface.Introducer.print how).display :: .part subpattern ::
        ascription.toList.map .part
  | namePattern v => [.part v]
  | tuplePattern elements => elements.map .part
  | wildcard => []

def extras : Kind → List NodeId
  | product _ _ _ _ memberwise => memberwise.toList
  | _ => []

def names : Kind → List Name
  | space _ x _ => [x]
  | product _ x _ _ _ => [x]
  | trait _ x _ => [x]
  | associated _ x => [x]
  | typeAlias _ x _ => [x]
  | operator _ _ _ x => [x]
  | function _ x _ _ _ _ => [x]
  | method _ x _ _ _ _ => [x]
  | subscript _ x _ _ _ => x.toList
  | var x => [x]
  | parameter x _ => [x]
  | generic x => [x]
  | name _ x => [x]
  | call _ args => args.filterMap (·.1)
  | subscriptCall _ args => args.filterMap (·.1)
  | binary _ op _ => [op]
  | nameType x => [x]
  | _ => []

/-- The places of the words that introduce a node or a part of it, and of an operator's
notation. -/
def marks : Kind → List Site
  | space s _ _ => [s]
  | product s _ _ _ _ => [s]
  | extension s _ _ => [s]
  | conformance s _ _ _ => [s]
  | trait s _ _ => [s]
  | associated s _ => [s]
  | typeAlias s _ _ => [s]
  | operator s _ s' _ => [s, s']
  | function s _ _ _ _ _ => [s]
  | method s _ _ _ _ _ => [s]
  | variant s _ _ => [s]
  | init s _ _ _ => [s]
  | subscript s _ _ _ _ => [s]
  | ret s _ => [s]
  | loop s _ _ => [s]
  | cond s _ _ s' _ => s :: s'.toList
  | bindingPattern s _ _ _ => [s]
  | _ => []

def isMemberwiseInit : Kind → Bool
  | init _ _ _ memberwise => memberwise
  | _ => false

def isOrdinary : Kind → Bool
  | module _ _ => false
  | init _ _ _ memberwise => !memberwise
  | _ => true

theorem isMemberwiseInit_of_isOrdinary {k : Kind} (h : k.isOrdinary = true) :
    k.isMemberwiseInit = false := by
  cases k <;> simp_all [isOrdinary, isMemberwiseInit]

theorem children_eq (k : Kind) : k.children = k.pieces.filterMap Piece.part? ++ k.extras := by
  cases k <;> simp only [children, pieces, extras, List.filterMap_cons, List.filterMap_append,
    List.filterMap_nil, Piece.part?, Piece.parts_of_parts, Piece.parts_of_names,
    Piece.parts_of_words, Piece.parts_of_args, List.append_nil, List.nil_append, List.append_assoc,
    List.cons_append]

theorem part_mem {i : NodeId} {k : Kind} (hi : .part i ∈ k.pieces) : i ∈ k.children := by
  rw [children_eq]
  exact List.mem_append_left _ (List.mem_filterMap.mpr ⟨_, hi, rfl⟩)

theorem mem_children_iff {k : Kind} {c : NodeId} :
    c ∈ k.children ↔ .part c ∈ k.pieces ∨ c ∈ k.extras := by
  rw [children_eq, List.mem_append, List.mem_filterMap]
  refine or_congr_left ⟨?_, fun h => ⟨_, h, rfl⟩⟩
  rintro ⟨p, hp, hc⟩
  cases p <;> cases hc
  exact hp

theorem name_mem_of_declares {k : Kind} {x : Name} (h : k.declares = some x) :
    .name x ∈ k.pieces := by
  cases k <;> simp_all [declares, pieces]

theorem names_eq (k : Kind) : k.names = k.pieces.filterMap Piece.name? := by
  cases k <;> simp only [names, pieces, List.filterMap_cons, List.filterMap_append,
    List.filterMap_nil, Piece.name?, Piece.names_of_parts, Piece.names_of_names,
    Piece.names_of_words, Piece.names_of_args, List.append_nil, List.nil_append]

theorem marks_eq (k : Kind) : k.marks = k.pieces.filterMap Piece.mark? := by
  cases k <;> simp only [marks, pieces, List.filterMap_cons, List.filterMap_append,
    List.filterMap_nil, Piece.mark?, Piece.marks_of_parts, Piece.marks_of_names,
    Piece.marks_of_words, Piece.marks_of_args, List.append_nil]

end Kind

namespace Tree

def isSynthesized (t : Tree) (i : NodeId) : Bool := (t.site i).isSynthesized

/-- The children of a node, the synthesized ones apart, stand one after another inside it, and so
do its names and marks, each name where the text has it. -/
structure Nests (t : Tree) (i : NodeId) : Prop where
  inside : ∀ c ∈ t.children i, t.isSynthesized c = false → (t.site i).Includes (t.site c)
  ordered : ((t.children i).filter (!t.isSynthesized ·)).Pairwise fun a b =>
    (t.site a).stop ≤ (t.site b).start
  names : t.isSynthesized i = false → ∀ x ∈ (t.kind i).names,
    (t.site i).Includes x.site ∧ x.site.text = x.text
  marks : t.isSynthesized i = false → ∀ s ∈ (t.kind i).marks, (t.site i).Includes s

structure Written (t : Tree) (p : Piece) : Prop where
  nonempty : (p.site t).start < (p.site t).stop
  token : (p.site t).StartsToken
  spelled : p.Spelled

/-- A node stands around its pieces, which stand one after another, unless it is written nowhere,
as its children are then, which only a memberwise initializer has. Children come first. -/
structure Placed (t : Tree) (i : NodeId) : Prop where
  written : t.isSynthesized i = false → ∀ p ∈ (t.kind i).pieces,
    (t.site i).Includes (p.site t) ∧ t.Written p
  inOrder : t.isSynthesized i = false → (t.kind i).pieces.Pairwise fun p q =>
    (p.site t).stop ≤ (q.site t).start
  hidden : ∀ c ∈ t.children i, t.isSynthesized i = true ∨ c ∈ (t.kind i).extras →
    t.isSynthesized c = true
  bare : t.isSynthesized i = true → (t.kind i).isMemberwiseInit = false → t.children i = []
  before : ∀ c ∈ t.children i, c < i
  notModule : t.isModule i = false
  unwritten : (t.kind i).isMemberwiseInit = true → t.isSynthesized i = true
  solid : (t.kind i).isExpr = true → t.isSynthesized i = false

def Accounted (t : Tree) (i : NodeId) : Prop :=
  t.isSynthesized i = true → (t.kind i).isMemberwiseInit = true ∨
    ∃ m, i < m ∧ (t.kind m).isMemberwiseInit = true ∧ i ∈ t.children m

structure Keeps (t t' : Tree) : Prop where
  size_le : t.size ≤ t'.size
  get?_eq : ∀ i < t.size, t'.get? i = t.get? i

variable {t t₁ t' : Tree} {i : NodeId}

theorem Keeps.refl (t : Tree) : Keeps t t := ⟨Nat.le_refl _, fun _ _ => rfl⟩

theorem Keeps.trans (h : Keeps t t₁) (h' : Keeps t₁ t') : Keeps t t' where
  size_le := Nat.le_trans h.size_le h'.size_le
  get?_eq := fun i hi => by
    rw [h'.get?_eq i (Nat.lt_of_lt_of_le hi h.size_le), h.get?_eq i hi]

theorem keeps_insert (t : Tree) (k : Kind) (s : Site) : Keeps t (t.insert k s).2 where
  size_le := by
    rw [size_insert]
    exact Nat.le_succ _
  get?_eq := fun i hi => by rw [get?_insert, if_neg (Nat.ne_of_lt hi)]

theorem Keeps.kind_eq (h : Keeps t t') (hi : i < t.size) : t'.kind i = t.kind i := by
  rw [kind, kind, h.get?_eq i hi]

theorem Keeps.site_eq (h : Keeps t t') (hi : i < t.size) : t'.site i = t.site i := by
  rw [site, site, h.get?_eq i hi]

theorem Keeps.children_eq (h : Keeps t t') (hi : i < t.size) : t'.children i = t.children i := by
  rw [children, children, h.kind_eq hi]

theorem Keeps.isSynthesized_eq (h : Keeps t t') (hi : i < t.size) :
    t'.isSynthesized i = t.isSynthesized i := by
  rw [isSynthesized, isSynthesized, h.site_eq hi]

theorem site_insert (t : Tree) (k : Kind) (s : Site) (i : NodeId) :
    (t.insert k s).2.site i = if i = t.size then s else t.site i := by
  rw [site, get?_insert]
  split <;> rfl

theorem isSynthesized_insert (t : Tree) (k : Kind) (s : Site) (i : NodeId) :
    (t.insert k s).2.isSynthesized i =
      if i = t.size then s.isSynthesized else t.isSynthesized i := by
  rw [isSynthesized, site_insert]
  split <;> rfl

theorem Placed.toNests (h : t.Placed i) : t.Nests i where
  inside := by
    intro c hc hown
    rcases Kind.mem_children_iff.mp hc with hpart | hextra
    · cases hi : t.isSynthesized i with
      | false => exact (h.written hi _ hpart).1
      | true => simp [h.hidden c hc (.inl hi)] at hown
    · simp [h.hidden c hc (.inr hextra)] at hown
  ordered := by
    cases hi : t.isSynthesized i with
    | true =>
        have hnone : (t.children i).filter (!t.isSynthesized ·) = [] := by
          simpa using fun c hc => h.hidden c hc (.inl hi)
        rw [hnone]
        exact .nil
    | false =>
        have hnone : (t.kind i).extras.filter (!t.isSynthesized ·) = [] := by
          simpa using fun c hc => h.hidden c (Kind.mem_children_iff.mpr (.inr hc)) (.inr hc)
        rw [children, Kind.children_eq, List.filter_append, hnone, List.append_nil]
        refine List.Pairwise.filter _ (List.pairwise_filterMap.mpr ?_)
        refine (h.inOrder hi).imp fun {p q} hpq c hc d hd => ?_
        cases p <;> cases hc
        cases q <;> cases hd
        exact hpq
  names := by
    intro hi x hx
    rw [Kind.names_eq] at hx
    obtain ⟨p, hp, heq⟩ := List.mem_filterMap.mp hx
    cases p <;> cases heq
    exact ⟨(h.written hi _ hp).1, (h.written hi _ hp).2.spelled.1⟩
  marks := by
    intro hi s hs
    rw [Kind.marks_eq] at hs
    obtain ⟨p, hp, heq⟩ := List.mem_filterMap.mp hs
    cases p <;> cases heq
    exact (h.written hi _ hp).1

theorem Placed.memberwise (h : t.Placed i) (hi : (t.kind i).isMemberwiseInit = true) :
    t.isSynthesized i = true ∧ ∀ c ∈ t.children i, t.isSynthesized c = true :=
  ⟨h.unwritten hi, fun c hc => h.hidden c hc (.inl (h.unwritten hi))⟩

theorem Keeps.piece_site_eq (h : Keeps t t') {p : Piece} (hp : ∀ i, p = .part i → i < t.size) :
    p.site t' = p.site t := by
  cases p with
  | part i => exact h.site_eq (hp i rfl)
  | _ => rfl

theorem Written.later {p : Piece} (hwritten : t.Written p) (h : p.site t' = p.site t) :
    t'.Written p where
  nonempty := by
    rw [h]
    exact hwritten.nonempty
  token := by
    rw [h]
    exact hwritten.token
  spelled := hwritten.spelled

theorem Placed.later (hplaced : t.Placed i) (h : Keeps t t') (hi : i < t.size) : t'.Placed i := by
  have hchild : ∀ c ∈ t.children i, c < t.size :=
    fun c hc => Nat.lt_trans (hplaced.before c hc) hi
  have hpiece : ∀ p ∈ (t.kind i).pieces, p.site t' = p.site t := by
    intro p hp
    refine h.piece_site_eq fun c hc => ?_
    subst hc
    exact hchild c (Kind.part_mem hp)
  refine ⟨?_, ?_, ?_, ?_, ?_, ?_, ?_, ?_⟩
  · rw [h.isSynthesized_eq hi, h.kind_eq hi, h.site_eq hi]
    intro hown p hp
    rw [hpiece p hp]
    exact ⟨(hplaced.written hown p hp).1, (hplaced.written hown p hp).2.later (hpiece p hp)⟩
  · rw [h.isSynthesized_eq hi, h.kind_eq hi]
    intro hown
    refine (hplaced.inOrder hown).imp_of_mem fun {p q} hp hq hpq => ?_
    rwa [hpiece p hp, hpiece q hq]
  · rw [h.children_eq hi, h.isSynthesized_eq hi, h.kind_eq hi]
    intro c hc
    rw [h.isSynthesized_eq (hchild c hc)]
    exact hplaced.hidden c hc
  · rw [h.isSynthesized_eq hi, h.kind_eq hi, h.children_eq hi]
    exact hplaced.bare
  · rw [h.children_eq hi]
    exact hplaced.before
  · rw [isModule, h.kind_eq hi]
    exact hplaced.notModule
  · rw [h.kind_eq hi, h.isSynthesized_eq hi]
    exact hplaced.unwritten
  · rw [h.kind_eq hi, h.isSynthesized_eq hi]
    exact hplaced.solid

theorem Accounted.later (haccounted : t.Accounted i) (h : Keeps t t') (hi : i < t.size) :
    t'.Accounted i := by
  intro hsynthesized
  rw [h.isSynthesized_eq hi] at hsynthesized
  rcases haccounted hsynthesized with hk | ⟨m, him, hm, hc⟩
  · exact .inl (by rwa [h.kind_eq hi])
  · have hlt := lt_size_of_child hc
    exact .inr ⟨m, him, by rwa [h.kind_eq hlt], by rwa [h.children_eq hlt]⟩

structure Lays (t t' : Tree) (f : File) : Prop where
  keeps : Keeps t t'
  placed : ∀ i, t.size ≤ i → i < t'.size → t'.Placed i
  accounted : f.isSynthesized = false → ∀ i, t.size ≤ i → i < t'.size → t'.Accounted i

variable {f : File}

theorem Lays.refl (t : Tree) (f : File) : Lays t t f :=
  ⟨.refl t, fun _ hle hlt => absurd hlt (Nat.not_lt.mpr hle),
    fun _ _ hle hlt => absurd hlt (Nat.not_lt.mpr hle)⟩

theorem Lays.trans (h : Lays t t₁ f) (h' : Lays t₁ t' f) : Lays t t' f where
  keeps := h.keeps.trans h'.keeps
  placed := by
    intro i hle hlt
    by_cases hi : i < t₁.size
    · exact (h.placed i hle hi).later h'.keeps hi
    · exact h'.placed i (Nat.le_of_not_lt hi) hlt
  accounted := by
    intro hf i hle hlt
    by_cases hi : i < t₁.size
    · exact (h.accounted hf i hle hi).later h'.keeps hi
    · exact h'.accounted hf i (Nat.le_of_not_lt hi) hlt

theorem lays_insert {k : Kind} {s : Site} (hfile : s.isSynthesized = f.isSynthesized)
    (hplain : k.isOrdinary = true) (hbefore : ∀ c ∈ k.children, c < t.size)
    (hwritten : ∀ p ∈ k.pieces, s.Includes (p.site t) ∧ t.Written p)
    (hordered : k.pieces.Pairwise fun p q => (p.site t).stop ≤ (q.site t).start)
    (hextras : ∀ c ∈ k.extras, t.isSynthesized c = true)
    (hbare : s.isSynthesized = true → k.children = [])
    (hsolid : k.isExpr = true → s.isSynthesized = false) :
    Lays t (t.insert k s).2 f := by
  have hkeeps := keeps_insert t k s
  have hnew {i : NodeId} (hle : t.size ≤ i) (hlt : i < (t.insert k s).2.size) : i = t.size := by
    rw [size_insert] at hlt
    exact Nat.le_antisymm (Nat.le_of_lt_succ hlt) hle
  have hsite : (t.insert k s).2.site t.size = s := by rw [site_insert, if_pos rfl]
  have hkind : (t.insert k s).2.kind t.size = k := by rw [kind_insert, if_pos rfl]
  have hchildren : (t.insert k s).2.children t.size = k.children := by
    rw [children_insert, if_pos rfl]
  have hsynthesized : (t.insert k s).2.isSynthesized t.size = s.isSynthesized := by
    rw [isSynthesized_insert, if_pos rfl]
  have hpiece : ∀ p ∈ k.pieces, p.site (t.insert k s).2 = p.site t := by
    intro p hp
    refine hkeeps.piece_site_eq fun c hc => ?_
    subst hc
    exact hbefore c (Kind.part_mem hp)
  refine ⟨hkeeps, fun i hle hlt => ?_, fun hf i hle hlt => ?_⟩
  · obtain rfl := hnew hle hlt
    refine ⟨?_, ?_, ?_, ?_, ?_, ?_, ?_, ?_⟩
    · rw [hkind, hsite]
      intro _ p hp
      rw [hpiece p hp]
      exact ⟨(hwritten p hp).1, (hwritten p hp).2.later (hpiece p hp)⟩
    · rw [hkind]
      intro _
      refine hordered.imp_of_mem fun {p q} hp hq hpq => ?_
      rwa [hpiece p hp, hpiece q hq]
    · rw [hchildren, hsynthesized, hkind]
      intro c hc
      rw [hkeeps.isSynthesized_eq (hbefore c hc)]
      rintro (hsynthesized | hextra)
      · simp [hbare hsynthesized] at hc
      · exact hextras c hextra
    · rw [hsynthesized, hchildren]
      exact fun h _ => hbare h
    · rw [hchildren]
      exact hbefore
    · rw [isModule, hkind]
      cases k <;> first | rfl | cases hplain
    · simp [hkind, Kind.isMemberwiseInit_of_isOrdinary hplain]
    · rw [hkind, hsynthesized]
      exact hsolid
  · obtain rfl := hnew hle hlt
    intro h
    simp [hsynthesized, hfile, hf] at h

end Tree

namespace Layout

def On (l : Layout) (t : Tree) (a b : Nat) : Piece → Prop
  | .word s w => b = a + 1 ∧ s = l.site ⟨a, b⟩ ∧
      ∃ k, Surface.Holds l.tokens a [k] ∧ k.isError = false ∧ k.display = w
  | .name x => b = a + 1 ∧ x.site = l.site ⟨a, b⟩ ∧
      ∃ k, Surface.Holds l.tokens a [k] ∧ k.isName = true ∧ k.display = x.text
  | .part i => i < t.size ∧ t.site i = l.site ⟨a, b⟩

def Row (l : Layout) (t : Tree) : Nat → Nat → List Piece → Prop
  | lo, hi, [] => lo ≤ hi
  | lo, hi, p :: ps => ∃ a b, lo ≤ a ∧ a < b ∧ l.On t a b p ∧ l.Row t b hi ps

section Row

variable {l : Layout} {t t' : Tree} {lo mid hi a b : Nat} {p : Piece} {ps qs : List Piece}

theorem On.site_eq (h : l.On t a b p) : p.site t = l.site ⟨a, b⟩ := by
  cases p with
  | word s w => exact h.2.1
  | name x => exact h.2.1
  | part i => exact h.2

theorem On.keeps (h : l.On t a b p) (hkeeps : t.Keeps t') : l.On t' a b p := by
  cases p with
  | word s w => exact h
  | name x => exact h
  | part i =>
      exact ⟨Nat.lt_of_lt_of_le h.1 hkeeps.size_le, (hkeeps.site_eq h.1).trans h.2⟩

theorem On.written (hl : l.Ordered) (h : l.On t a b p) (hab : a < b) (hb : b ≤ l.tokens.length) :
    t.Written p where
  nonempty := by
    rw [h.site_eq]
    exact site_start_lt_stop hl hab hb
  token := by
    rw [h.site_eq]
    exact startsToken_site hl hab hb
  spelled := by
    cases p with
    | word s w =>
        obtain ⟨rfl, rfl, k, hheld, herror, rfl⟩ := h
        exact text_site hl hheld herror
    | name x =>
        obtain ⟨rfl, hsite, k, hheld, hk, hdisplay⟩ := h
        obtain ⟨herror, hkeyword⟩ := not_keyword hl hheld hk
        rw [hdisplay] at hkeyword
        exact ⟨by rw [hsite, text_site hl hheld herror, hdisplay], hkeyword⟩
    | part i => trivial

theorem Row.le (h : l.Row t lo hi ps) : lo ≤ hi := by
  induction ps generalizing lo with
  | nil => exact h
  | cons p ps ih =>
      obtain ⟨a, b, hlo, hab, -, hrest⟩ := h
      have := ih hrest
      omega

theorem Row.keeps (h : l.Row t lo hi ps) (hkeeps : t.Keeps t') : l.Row t' lo hi ps := by
  induction ps generalizing lo with
  | nil => exact h
  | cons p ps ih =>
      obtain ⟨a, b, hlo, hab, hp, hrest⟩ := h
      exact ⟨a, b, hlo, hab, hp.keeps hkeeps, ih hrest⟩

theorem Row.append (h : l.Row t lo mid ps) (h' : l.Row t mid hi qs) :
    l.Row t lo hi (ps ++ qs) := by
  induction ps generalizing lo with
  | nil =>
      cases qs with
      | nil => exact Nat.le_trans h h'
      | cons q qs =>
          obtain ⟨a, b, hlo, hrest⟩ := h'
          exact ⟨a, b, Nat.le_trans h hlo, hrest⟩
  | cons p ps ih =>
      obtain ⟨a, b, hlo, hab, hp, hrest⟩ := h
      exact ⟨a, b, hlo, hab, hp, ih hrest⟩

theorem Row.widen {lo' hi' : Nat} (h : l.Row t lo hi ps) (hlo : lo' ≤ lo) (hhi : hi ≤ hi') :
    l.Row t lo' hi' ps := by
  have hleft : l.Row t lo' lo [] := hlo
  have hright : l.Row t hi hi' [] := hhi
  simpa using (hleft.append h).append hright

theorem Row.mem (h : l.Row t lo hi ps) (hp : p ∈ ps) :
    ∃ a b, lo ≤ a ∧ a < b ∧ b ≤ hi ∧ l.On t a b p := by
  induction ps generalizing lo with
  | nil => simp at hp
  | cons q ps ih =>
      obtain ⟨a, b, hlo, hab, hq, hrest⟩ := h
      rcases List.mem_cons.mp hp with rfl | hp
      · exact ⟨a, b, hlo, hab, hrest.le, hq⟩
      · obtain ⟨a', b', hlo', h⟩ := ih hrest hp
        exact ⟨a', b', by omega, h⟩

theorem Row.pairwise (hl : l.Ordered) (h : l.Row t lo hi ps) (hhi : hi ≤ l.tokens.length) :
    ps.Pairwise fun p q => (p.site t).stop ≤ (q.site t).start := by
  induction ps generalizing lo with
  | nil => exact .nil
  | cons p ps ih =>
      obtain ⟨a, b, -, hab, hp, hrest⟩ := h
      refine .cons (fun q hq => ?_) (ih hrest)
      obtain ⟨a', b', hba', hab', hb', hq⟩ := hrest.mem hq
      rw [hp.site_eq, hq.site_eq]
      exact site_stop_le_start hl hab hba' hab' (Nat.le_trans hb' hhi)

theorem Row.written (hl : l.Ordered) (h : l.Row t lo hi ps) (hhi : hi ≤ l.tokens.length)
    (hp : p ∈ ps) : t.Written p := by
  obtain ⟨a, b, -, hab, hb, hon⟩ := h.mem hp
  exact hon.written hl hab (Nat.le_trans hb hhi)

theorem Row.lt_size {i : NodeId} (h : l.Row t lo hi ps) (hi : .part i ∈ ps) : i < t.size := by
  obtain ⟨a, b, -, -, -, hon⟩ := h.mem hi
  exact hon.1

end Row

end Layout

section Insert

variable {l : Layout} (hl : l.Ordered) {t : Tree} {acc : List Piece} {lo mid lo' hi : Nat}

include hl

theorem Layout.Row.insert (hrow : l.Row t lo mid acc) {k : Kind} {s : Surface.Span}
    (hextra : ∀ c ∈ k.extras, c < t.size ∧ t.isSynthesized c = true)
    (hspan : s = ⟨lo', hi⟩) (hpieces : k.pieces = acc)
    (hplain : k.isOrdinary = true) (hlo : lo' ≤ lo) (hmid : mid ≤ hi) (hlt : lo' < hi)
    (hhi : hi ≤ l.tokens.length) :
    Tree.Lays t (t.insert k (l.site s)).2 l.file ∧
      l.Row (t.insert k (l.site s)).2 lo' hi [.part (t.insert k (l.site s)).1] := by
  subst hspan hpieces
  have hown : (l.site ⟨lo', hi⟩).isSynthesized = false :=
    isSynthesized_of_tokens hl (Nat.lt_of_lt_of_le (Nat.zero_lt_of_lt hlt) hhi)
  constructor
  · refine Tree.lays_insert rfl hplain ?_ ?_ (hrow.pairwise hl (Nat.le_trans hmid hhi))
      (fun c hc => (hextra c hc).2) (by simp [hown]) fun _ => hown
    · intro c hc
      rcases Kind.mem_children_iff.mp hc with hpart | hc
      · exact hrow.lt_size hpart
      · exact (hextra c hc).1
    · intro p hp
      refine ⟨?_, hrow.written hl (Nat.le_trans hmid hhi) hp⟩
      obtain ⟨a, b, hlo', hab, hb, hon⟩ := hrow.mem hp
      rw [hon.site_eq]
      exact includes_site hl (Nat.le_trans hlo hlo') hab (Nat.le_trans hb hmid) hhi
  · refine ⟨lo', hi, Nat.le_refl _, hlt, ⟨?_, ?_⟩, Nat.le_refl hi⟩
    · simp [Tree.fst_insert, Tree.size_insert]
    · simp [Tree.fst_insert, Tree.site_insert]

end Insert

namespace Lowering

open LanguageService.Tree (Keeps Lays)

variable {α β : Type} {l : Layout} {acc : List Piece} {lo mid lo' hi : Nat}

def Places (l : Layout) (m : Lowering α) (lo hi : Nat) (out : α → List Piece) : Prop :=
  ∀ t, Lays t (m t).2 l.file ∧ l.Row (m t).2 lo hi (out (m t).1)

/-- The same of what is left of a lowering after it has made the row `acc` from `lo` to `mid`. -/
def PlacesAfter (l : Layout) (m : Lowering α) (acc : List Piece) (lo mid lo' hi : Nat)
    (out : α → List Piece) : Prop :=
  ∀ t, l.Row t lo mid acc → Lays t (m t).2 l.file ∧ l.Row (m t).2 lo' hi (out (m t).1)

theorem PlacesAfter.places {m : Lowering α} {out : α → List Piece} (lo : Nat)
    (h : PlacesAfter l m [] lo lo lo' hi out) : Places l m lo' hi out :=
  fun t => h t (Nat.le_refl lo)

theorem Places.widen {m : Lowering α} {out : α → List Piece} {lo' hi' : Nat}
    (h : Places l m lo hi out) (hlo : lo' ≤ lo) (hhi : hi ≤ hi') : Places l m lo' hi' out :=
  fun t => ⟨(h t).1, (h t).2.widen hlo hhi⟩

theorem PlacesAfter.bind {m : Lowering α} {f : α → Lowering β} {q : α → List Piece}
    {out : β → List Piece} {mid' : Nat} (hm : Places l m mid mid' q)
    (hf : ∀ t, PlacesAfter l (f (m t).1) (acc ++ q (m t).1) lo mid' lo' hi out) :
    PlacesAfter l (m >>= f) acc lo mid lo' hi out := by
  intro t hrow
  obtain ⟨hlays, hrow'⟩ := hm t
  obtain ⟨hlays', hresult⟩ := hf t (m t).2 ((hrow.keeps hlays.keeps).append hrow')
  exact ⟨hlays.trans hlays', hresult⟩

theorem PlacesAfter.words {m : Lowering α} {out : α → List Piece} {ps : List Piece} {mid' : Nat}
    (hps : ∀ t, l.Row t mid mid' ps) (hm : PlacesAfter l m (acc ++ ps) lo mid' lo' hi out) :
    PlacesAfter l m acc lo mid lo' hi out :=
  fun t hrow => hm t (hrow.append (hps t))

theorem PlacesAfter.andThen {m : Lowering α} {f : α → Lowering β} {q : α → List Piece}
    {out : β → List Piece} {lo₁ mid' : Nat} (hm : PlacesAfter l m acc lo mid lo₁ mid' q)
    (hf : ∀ t, PlacesAfter l (f (m t).1) (q (m t).1) lo₁ mid' lo' hi out) :
    PlacesAfter l (m >>= f) acc lo mid lo' hi out := by
  intro t hrow
  obtain ⟨hlays, hrow'⟩ := hm t hrow
  obtain ⟨hlays', hresult⟩ := hf t (m t).2 hrow'
  exact ⟨hlays.trans hlays', hresult⟩

theorem PlacesAfter.pure {a : α} {out : α → List Piece} (h : out a = acc) (hlo : lo' ≤ lo)
    (hmid : mid ≤ hi) : PlacesAfter l (pure a) acc lo mid lo' hi out := by
  intro t hrow
  refine ⟨.refl t l.file, ?_⟩
  have hrow' := hrow.widen hlo hmid
  rwa [← h] at hrow'

theorem Places.pure {a : α} {out : α → List Piece} (h : out a = []) (hle : lo ≤ hi) :
    Places l (Pure.pure a) lo hi out :=
  (PlacesAfter.pure h (Nat.le_refl lo) hle).places lo

theorem PlacesAfter.insert (hl : l.Ordered) {k : Kind} {s : Surface.Span} (hspan : s = ⟨lo', hi⟩)
    (hpieces : k.pieces = acc) (hextras : k.extras = []) (hplain : k.isOrdinary = true)
    (hlo : lo' ≤ lo) (hmid : mid ≤ hi) (hlt : lo' < hi) (hhi : hi ≤ l.tokens.length) :
    PlacesAfter l (insert k (l.site s)) acc lo mid lo' hi fun i => [.part i] := by
  intro t hrow
  exact hrow.insert hl (by simp [hextras]) hspan hpieces hplain hlo hmid hlt hhi

end Lowering

end LanguageService
