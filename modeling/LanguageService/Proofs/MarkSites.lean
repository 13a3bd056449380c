import LanguageService.Highlight
import LanguageService.Proofs.Walking

namespace LanguageService

namespace Kind

def isLiteral : Kind → Bool
  | int _ => true
  | float _ => true
  | string _ => true
  | bool _ => true
  | _ => false

end Kind

def Mark.isDeclaration (m : Mark) : Bool := m.modifiers &&& declaration != 0

namespace Highlight

variable {t : Tree} {fuel : Nat} {x? : Option Name} {ps qs : List Piece} {ms ms' : List Mark}

@[simp]
theorem isDeclaration_plain (kind : MarkKind) (s : Site) :
    (plain kind s).isDeclaration = false := by
  simp [plain, Mark.isDeclaration]

@[simp]
theorem isDeclaration_declared (kind : MarkKind) (x : Name) :
    (declared kind x).isDeclaration = true := by
  simp [declared, Mark.isDeclaration, Mark.declaration]

/-- The marks of pieces in turn: one for a word or a name, and all that a part has. Only the name
that is declared is marked so. -/
inductive Shows (t : Tree) (fuel : Nat) (x? : Option Name) : List Piece → List Mark → Prop where
  | nil : Shows t fuel x? [] []
  | word {s : Site} {text : String} {kind : MarkKind} {ps : List Piece} {ms : List Mark}
      (hrest : Shows t fuel x? ps ms) : Shows t fuel x? (.word s text :: ps) (plain kind s :: ms)
  | used {x : Name} {kind : MarkKind} {ps : List Piece} {ms : List Mark}
      (hrest : Shows t fuel x? ps ms) :
      Shows t fuel x? (.name x :: ps) (plain kind x.site :: ms)
  | declared {x : Name} {m : Mark} {ps : List Piece} {ms : List Mark} (hx : x? = some x)
      (hsite : m.site = x.site) (hrest : Shows t fuel x? ps ms) :
      Shows t fuel x? (.name x :: ps) (m :: ms)
  | part (s : Surroundings) {i : NodeId} {ps : List Piece} {ms : List Mark}
      (hrest : Shows t fuel x? ps ms) :
      Shows t fuel x? (.part i :: ps) (marksAt t fuel s i ++ ms)

namespace Shows

theorem append (h : Shows t fuel x? ps ms) (h' : Shows t fuel x? qs ms') :
    Shows t fuel x? (ps ++ qs) (ms ++ ms') := by
  induction h with
  | nil => exact h'
  | word _ ih => exact .word ih
  | used _ ih => exact .used ih
  | declared hx hsite _ ih => exact .declared hx hsite ih
  | part s _ ih =>
      rw [List.append_assoc]
      exact .part s ih

theorem node (s : Surroundings) (i : NodeId) : Shows t fuel x? [.part i] (marksAt t fuel s i) := by
  have hnil : Shows t fuel x? [] [] := .nil
  simpa using hnil.part s (i := i)

theorem parts (s : Surroundings) (is : List NodeId) :
    Shows t fuel x? (is.map .part) (is.flatMap (marksAt t fuel s)) := by
  induction is with
  | nil => exact .nil
  | cons i is ih => exact .part s ih

theorem names {kind : MarkKind} (xs : List Name) (h : ∀ x ∈ xs, x? = some x) :
    Shows t fuel x? (xs.map .name) (xs.map (Highlight.declared kind)) := by
  induction xs with
  | nil => exact .nil
  | cons x xs ih =>
      exact .declared (h x List.mem_cons_self) rfl
        (ih fun y hy => h y (List.mem_cons_of_mem x hy))

theorem words {kind : MarkKind} (ss : List Site) (text : String) :
    Shows t fuel x? (ss.map (.word · text)) (ss.map (plain kind)) := by
  induction ss with
  | nil => exact .nil
  | cons s ss ih => exact .word ih

theorem args (s : Surroundings) (as : List (Option Name × NodeId)) :
    Shows t fuel x? (as.flatMap Piece.ofArg)
      (as.flatMap fun (l, v) =>
        l.toList.map (fun x => plain .label x.site) ++ marksAt t fuel s v) := by
  induction as with
  | nil => exact .nil
  | cons a as ih =>
      rcases a with ⟨_ | x, v⟩
      · exact (node s v).append ih
      · exact ((Shows.used .nil).append (node s v)).append ih

end Shows

theorem marksAt_of_isLiteral {s : Surroundings} {i : NodeId} (hi : (t.kind i).isLiteral = true) :
    ∃ kind, marksAt t (fuel + 1) s i = [plain kind (t.site i)] := by
  rw [marksAt]
  cases hk : t.kind i <;> first | exact ⟨_, rfl⟩ | simp [hk, Kind.isLiteral] at hi

theorem marksAt_shows {s : Surroundings} {i : NodeId} (hi : (t.kind i).isLiteral = false) :
    Shows t fuel (t.kind i).declares (t.kind i).pieces (marksAt t (fuel + 1) s i) := by
  rw [marksAt]
  cases hk : t.kind i with
  | module _ us => exact .parts _ us
  | unit ds => exact .parts _ ds
  | space k x ms => exact .word (.declared rfl rfl (.parts _ ms))
  | product k x gs ms _ =>
      simpa [Kind.pieces, Kind.declares] using Shows.word (.declared rfl rfl
        ((Shows.parts _ gs).append (.parts _ ms)))
  | extension k subject ms => exact .word (.part _ (.parts _ ms))
  | conformance k subject ts ms =>
      simpa [Kind.pieces] using Shows.word (.part _ ((Shows.parts _ ts).append (.parts _ ms)))
  | trait k x ms => exact .word (.declared rfl rfl (.parts _ ms))
  | associated k x => exact .word (.declared rfl rfl .nil)
  | typeAlias k x aliased => exact .word (.declared rfl rfl (.node _ aliased))
  | operator k _ f x => exact .word (.word (.declared rfl rfl .nil))
  | function k x gs ps o b => exact .word (.declared rfl rfl (.parts _ _))
  | method k x gs ps o vs => exact .word (.declared rfl rfl (.parts _ _))
  | variant k _ b => exact .word (.node _ b)
  | init k ps b _ => exact .word (.parts _ _)
  | subscript k x ps o b =>
      exact .word ((Shows.names _ (by simp [Kind.declares])).append (.parts _ _))
  | binding p e => exact .part _ (.parts _ _)
  | bindingPattern k how p a => exact .word (.part _ (.parts _ _))
  | namePattern v => exact .node _ v
  | tuplePattern es => exact .parts _ es
  | var x => exact .declared rfl rfl .nil
  | parameter x a => exact .declared rfl rfl (.parts _ _)
  | generic x => exact .declared rfl rfl .nil
  | int _ => simp [hk, Kind.isLiteral] at hi
  | float _ => simp [hk, Kind.isLiteral] at hi
  | string _ => simp [hk, Kind.isLiteral] at hi
  | bool _ => simp [hk, Kind.isLiteral] at hi
  | name d x =>
      exact (Shows.parts _ _).append (.used .nil)
  | call c as => exact .part _ (.args _ as)
  | subscriptCall c as => exact .part _ (.args _ as)
  | binary l op r =>
      exact .part _ (.used (.node _ r))
  | tuple es => exact .parts _ es
  | nameType x => exact .used .nil
  | tupleType es => exact .parts _ es
  | brace ss => exact .parts _ ss
  | ret k v => exact .word (.parts _ _)
  | expr e => exact .node _ e
  | assign l r => exact .part _ (.node _ r)
  | loop k c b => exact .word (.part _ (.node _ b))
  | cond k c yes other no =>
      simpa [Kind.pieces] using Shows.word (.part _ (.part _
        ((Shows.words other.toList _).append (.parts _ no.toList))))
  | decl d => exact .node _ d
  | wildcard => exact .nil

structure Standing (s : Site) (ms : List Mark) : Prop where
  inside : ∀ m ∈ ms, s.Includes m.site
  nonempty : ∀ m ∈ ms, m.site.start < m.site.stop
  token : ∀ m ∈ ms, m.site.StartsToken
  inOrder : ms.Pairwise fun m m' => m.site.stop ≤ m'.site.start

namespace Standing

variable {s s' : Site}

theorem nil (s : Site) : Standing s [] := ⟨by simp, by simp, by simp, .nil⟩

theorem widen (h : Standing s ms) (hs : s'.Includes s) : Standing s' ms :=
  ⟨fun m hm => hs.trans (h.inside m hm), h.nonempty, h.token, h.inOrder⟩

theorem of_written {p : Piece} {m : Mark} (h : t.Written p) (hm : m.site = p.site t) :
    Standing (p.site t) [m] := by
  refine ⟨?_, ?_, ?_, List.pairwise_singleton _ m⟩ <;> rw [List.forall_mem_singleton, hm]
  · exact .refl _
  · exact h.nonempty
  · exact h.token

theorem append (h : Standing s ms) (h' : Standing s ms')
    (hle : ∀ m ∈ ms, ∀ m' ∈ ms', m.site.stop ≤ m'.site.start) : Standing s (ms ++ ms') where
  inside := List.forall_mem_append.mpr ⟨h.inside, h'.inside⟩
  nonempty := List.forall_mem_append.mpr ⟨h.nonempty, h'.nonempty⟩
  token := List.forall_mem_append.mpr ⟨h.token, h'.token⟩
  inOrder := List.pairwise_append.mpr ⟨h.inOrder, h'.inOrder, hle⟩

end Standing

theorem Shows.standing {s : Site} (h : Shows t fuel x? ps ms)
    (hps : ∀ p ∈ ps, s.Includes (p.site t) ∧ t.Written p)
    (hordered : ps.Pairwise fun p q => (p.site t).stop ≤ (q.site t).start)
    (hparts : ∀ i, .part i ∈ ps → ∀ s, Standing (t.site i) (marksAt t fuel s i)) :
    Standing s ms ∧ ∀ m ∈ ms, ∃ p ∈ ps, (p.site t).Includes m.site := by
  have hcons {p : Piece} {ps : List Piece} {ms ms' : List Mark}
      (hp : s.Includes (p.site t) ∧ Standing (p.site t) ms)
      (hordered : ∀ q ∈ ps, (p.site t).stop ≤ (q.site t).start)
      (hrest : Standing s ms' ∧ ∀ m ∈ ms', ∃ q ∈ ps, (q.site t).Includes m.site) :
      Standing s (ms ++ ms') ∧ ∀ m ∈ ms ++ ms', ∃ q ∈ p :: ps, (q.site t).Includes m.site := by
    refine ⟨(hp.2.widen hp.1).append hrest.1 fun m hm m' hm' => ?_, ?_⟩
    · obtain ⟨q, hq, hm'⟩ := hrest.2 m' hm'
      exact Nat.le_trans (hp.2.inside m hm).stop (Nat.le_trans (hordered q hq) hm'.start)
    · refine List.forall_mem_append.mpr ⟨fun m hm => ⟨p, by simp, hp.2.inside m hm⟩, ?_⟩
      intro m hm
      obtain ⟨q, hq, hm⟩ := hrest.2 m hm
      exact ⟨q, List.mem_cons_of_mem p hq, hm⟩
  induction h with
  | nil => exact ⟨.nil s, by simp⟩
  | word _ ih | used _ ih | declared _ hsite _ ih =>
      obtain ⟨hp, hps⟩ := List.forall_mem_cons.mp hps
      obtain ⟨hordered, hrest⟩ := List.pairwise_cons.mp hordered
      have ih := ih hps hrest fun i hi => hparts i (List.mem_cons_of_mem _ hi)
      first
        | exact hcons ⟨hp.1, .of_written hp.2 rfl⟩ hordered ih
        | exact hcons ⟨hp.1, .of_written hp.2 hsite⟩ hordered ih
  | part s _ ih =>
      obtain ⟨hp, hps⟩ := List.forall_mem_cons.mp hps
      obtain ⟨hordered, hrest⟩ := List.pairwise_cons.mp hordered
      exact hcons ⟨hp.1, hparts _ List.mem_cons_self s⟩ hordered
        (ih hps hrest fun i hi => hparts i (List.mem_cons_of_mem _ hi))

theorem marksAt_standing (h : t.Parsed) {u n : NodeId} (hu : u ∈ t.units) (hn : t.Below u n)
    (hown : t.isSynthesized n = false)
    (hwritten : (t.kind n).isLiteral = true → t.Written (.part n)) (s : Surroundings) :
    Standing (t.site n) (marksAt t fuel s n) := by
  induction fuel generalizing n s with
  | zero =>
      rw [marksAt]
      exact .nil _
  | succ fuel ih =>
      cases hliteral : (t.kind n).isLiteral with
      | true =>
          obtain ⟨kind, heq⟩ : ∃ kind, marksAt t (fuel + 1) s n = [plain kind (t.site n)] :=
            marksAt_of_isLiteral hliteral
          rw [heq]
          exact .of_written (hwritten hliteral) rfl
      | false =>
          have hplaced := Tree.placed_of_below h hu hn
          refine ((marksAt_shows hliteral).standing (hplaced.written hown) (hplaced.inOrder hown)
            fun i hi s => ?_).1
          obtain ⟨hinside, hpart⟩ := hplaced.written hown _ hi
          exact ih (hn.trans (Tree.below_child (Kind.part_mem hi)))
            (hinside.isSynthesized_eq.trans hown) (fun _ => hpart) s

theorem declares_of_mem_marksAt {s : Surroundings} {n : NodeId} {m : Mark}
    (hm : m ∈ marksAt t fuel s n) (hdeclaration : m.isDeclaration = true) :
    ∃ d x, t.Below n d ∧ (t.kind d).declares = some x ∧ m.site = x.site := by
  induction fuel generalizing n s with
  | zero => simp [marksAt] at hm
  | succ fuel ih =>
      cases hliteral : (t.kind n).isLiteral with
      | true =>
          obtain ⟨kind, heq⟩ : ∃ kind, marksAt t (fuel + 1) s n = [plain kind (t.site n)] :=
            marksAt_of_isLiteral hliteral
          rw [heq, List.mem_singleton] at hm
          simp [hm] at hdeclaration
      | false =>
          have hpart : ∀ i, .part i ∈ (t.kind n).pieces → i ∈ t.children n :=
            fun i hi => Kind.part_mem hi
          have hshows : Shows t fuel (t.kind n).declares (t.kind n).pieces
              (marksAt t (fuel + 1) s n) := marksAt_shows hliteral
          generalize (t.kind n).pieces = ps at hpart hshows
          generalize marksAt t (fuel + 1) s n = ms at hm hshows
          generalize hx : (t.kind n).declares = x? at hshows
          induction hshows with
          | nil => simp at hm
          | word _ ihrest | used _ ihrest =>
              rcases List.mem_cons.mp hm with rfl | hm
              · simp at hdeclaration
              · exact ihrest (fun i hi => hpart i (by simp [hi])) hm
          | declared hdeclares hsite _ ihrest =>
              rcases List.mem_cons.mp hm with rfl | hm
              · exact ⟨n, _, .refl n, hx.trans hdeclares, hsite⟩
              · exact ihrest (fun i hi => hpart i (by simp [hi])) hm
          | @part s i ps ms _ ihrest =>
              rcases List.mem_append.mp hm with hm | hm
              · obtain ⟨d, x, hd, hrest⟩ := ih hm
                exact ⟨d, x, .of_child (hpart i List.mem_cons_self) hd, hrest⟩
              · exact ihrest (fun i hi => hpart i (by simp [hi])) hm

theorem dropFrom_eq {start : Nat} (h : ms.Pairwise fun m m' => m.site.start < m'.site.start)
    (hstart : ∀ m ∈ ms, start < m.site.start) : dropRepeated.dropFrom start ms = ms := by
  induction ms generalizing start with
  | nil => rfl
  | cons m ms ih =>
      obtain ⟨hm, hms⟩ := List.pairwise_cons.mp h
      rw [dropRepeated.dropFrom, if_neg (Nat.ne_of_gt (hstart m List.mem_cons_self)), ih hms hm]

theorem dropRepeated_eq (h : ms.Pairwise fun m m' => m.site.start < m'.site.start) :
    dropRepeated ms = ms := by
  cases ms with
  | nil => rfl
  | cons m ms =>
      obtain ⟨hm, hms⟩ := List.pairwise_cons.mp h
      rw [dropRepeated, dropFrom_eq hms hm]

theorem starts_of_stops (h : ms.Pairwise fun m m' => m.site.stop ≤ m'.site.start)
    (hlt : ∀ m ∈ ms, m.site.start < m.site.stop) :
    ms.Pairwise fun m m' => m.site.start < m'.site.start :=
  h.imp_of_mem fun hm _ hle => Nat.lt_of_lt_of_le (hlt _ hm) hle

theorem unit_standing (h : t.Parsed) {u : NodeId} (hu : u ∈ t.units) (s : Surroundings) :
    Standing (t.site u) (marksAt t fuel s u) := by
  obtain ⟨ds, hk⟩ := Kind.exists_of_isUnit (Tree.isUnit_of_mem_units h.wellFormed hu)
  cases hown : t.isSynthesized u with
  | false => exact marksAt_standing h hu (.refl u) hown (by simp [hk, Kind.isLiteral]) s
  | true =>
      have hnone : ds = [] := by
        simpa [Tree.children, hk, Kind.children, Kind.isMemberwiseInit] using
          (Tree.placed_of_below h hu (.refl u)).bare hown
      have hmarks : marksAt t fuel s u = [] := by
        cases fuel <;> simp [marksAt, hk, hnone]
      rw [hmarks]
      exact .nil _

theorem comments_standing (f : File) :
    (∀ m ∈ comments f, m.site.file = f ∧ m.site.start < m.site.stop ∧ m.isDeclaration = false) ∧
      (comments f).Pairwise fun m m' => m.site.start < m'.site.start := by
  constructor
  · intro m hm
    obtain ⟨x, hx, rfl⟩ := List.mem_map.mp hm
    exact ⟨rfl, (Lexer.standsIn_of_mem_scan (List.mem_of_mem_filter hx)).start_lt_stop,
      isDeclaration_plain .comment _⟩
  · exact List.pairwise_map.mpr (Lexer.comments_starts _)

theorem found_starts {s : Site} (h : Standing s ms) :
    (ms ++ comments s.file).Pairwise fun m m' => m.site.start ≠ m'.site.start := by
  refine List.pairwise_append.mpr ⟨(starts_of_stops h.inOrder h.nonempty).imp Nat.ne_of_lt,
    (comments_standing _).2.imp Nat.ne_of_lt, fun m hm m' hm' => ?_⟩
  obtain ⟨y, hy, rfl⟩ := List.mem_map.mp hm'
  obtain ⟨x, hx, hstart⟩ := h.token m hm
  rw [(h.inside m hm).file] at hx
  rw [← hstart]
  exact Lexer.start_ne_of_comment hx hy

theorem starts_of_perm
    (hle : ms.Pairwise fun m m' => decide (m.site.start ≤ m'.site.start) = true)
    (hperm : ms.Perm ms') (h : ms'.Pairwise fun m m' => m.site.start ≠ m'.site.start) :
    ms.Pairwise fun m m' => m.site.start < m'.site.start := by
  have hne := (hperm.pairwise_iff (R := fun m m' => m.site.start ≠ m'.site.start) Ne.symm).mpr h
  refine (hle.and hne).imp fun {m m'} hm => ?_
  exact Nat.lt_of_le_of_ne (of_decide_eq_true hm.1) hm.2

theorem mergeSort_starts {ms : List Mark}
    (h : ms.Pairwise fun m m' => m.site.start ≠ m'.site.start) :
    (ms.mergeSort fun a b => a.site.start ≤ b.site.start).Pairwise fun m m' =>
      m.site.start < m'.site.start := by
  refine starts_of_perm ?_ (List.mergeSort_perm ms _) h
  exact List.pairwise_mergeSort (by simpa using fun a b c => Nat.le_trans)
    (by simpa using fun a b => Nat.le_total _ _) ms

theorem marks_eq_mergeSort (h : t.Parsed) {uri : String} {u : NodeId}
    (hu : t.unitOf? uri = some u) :
    marks t uri = (marksAt t (t.size + 1) ⟨false, false, .value⟩ u ++
      comments (t.site u).file).mergeSort fun a b => a.site.start ≤ b.site.start := by
  have hms : Standing (t.site u) (marksAt t (t.size + 1) ⟨false, false, .value⟩ u) :=
    unit_standing h (h.mem_units_of_unitOf? hu) ⟨false, false, .value⟩
  rw [marks, hu]
  dsimp only
  generalize (t.site u) = s at hms
  generalize marksAt t (t.size + 1) ⟨false, false, .value⟩ u = ms at hms
  obtain ⟨hcomments, -⟩ := comments_standing s.file
  have hvisible : ((ms ++ comments s.file).filter fun m =>
      m.site.file == s.file && !m.site.isEmpty) = ms ++ comments s.file := by
    have hall : ∀ m ∈ ms ++ comments s.file, m.site.file = s.file ∧ m.site.start < m.site.stop :=
      List.forall_mem_append.mpr ⟨fun m hm => ⟨(hms.inside m hm).file, hms.nonempty m hm⟩,
        fun m hm => ⟨(hcomments m hm).1, (hcomments m hm).2.1⟩⟩
    refine List.filter_eq_self.mpr fun m hm => ?_
    obtain ⟨hfile, hlt⟩ := hall m hm
    simp [hfile, Site.isEmpty, Nat.ne_of_lt hlt]
  rw [hvisible, dropRepeated_eq (mergeSort_starts (found_starts hms))]

theorem filter_marks (h : t.Parsed) {uri : String} {u : NodeId} (hu : t.unitOf? uri = some u)
    {p : Mark → Bool} (hp : ∀ m, p m = true → m.isDeclaration = true) :
    (marks t uri).filter p = (marksAt t (t.size + 1) ⟨false, false, .value⟩ u).filter p := by
  have hms : Standing (t.site u) (marksAt t (t.size + 1) ⟨false, false, .value⟩ u) :=
    unit_standing h (h.mem_units_of_unitOf? hu) ⟨false, false, .value⟩
  rw [marks_eq_mergeSort h hu]
  generalize (t.site u) = s at hms
  generalize marksAt t (t.size + 1) ⟨false, false, .value⟩ u = ms at hms
  have hsorted := mergeSort_starts (found_starts hms)
  have hnone : (comments s.file).filter p = [] := by
    rw [List.filter_eq_nil_iff]
    intro m hm hpm
    have hplain := ((comments_standing s.file).1 m hm).2.2
    simp [hp m hpm] at hplain
  refine List.Perm.eq_of_pairwise (fun m m' _ _ hlt hgt => absurd hlt (Nat.lt_asymm hgt))
    (hsorted.filter p) ((starts_of_stops hms.inOrder hms.nonempty).filter p) ?_
  have hperm := (List.mergeSort_perm (ms ++ comments s.file)
    fun a b => decide (a.site.start ≤ b.site.start)).filter p
  rwa [List.filter_append, hnone, List.append_nil] at hperm

end Highlight

end LanguageService
