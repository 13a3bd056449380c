import LanguageService.Uri.Address
import Mathlib.Algebra.Group.Nat.Defs

namespace LanguageService.Uri

section Digits

variable {base n d : Nat}

theorem toDigits_step (hbase : 1 < base) (hn : base ≤ n) :
    Nat.toDigits base n = Nat.toDigits base (n / base) ++ [Nat.digitChar (n % base)] := by
  have hpos : 0 < n / base := Nat.div_pos hn (by omega)
  have hrest : n % base < base := Nat.mod_lt n (by omega)
  have happend := Nat.toDigits_append_toDigits hbase hpos hrest
  rw [Nat.toDigits_of_lt_base hrest, Nat.div_add_mod] at happend
  exact happend.symm

theorem digitValue?_digitChar (hbase : base ≤ 16) (hd : d < base) :
    digitValue? base (Nat.digitChar d) = some d := by
  have hall : ∀ k : Fin 16, hexValue? (Nat.digitChar k) = some k.val := by decide
  simp [digitValue?, hall ⟨d, by omega⟩, hd]

theorem readDigits_append (base n : Nat) (xs ys : List Char) :
    readDigits base n (xs ++ ys) = (readDigits base n xs).bind (readDigits base · ys) := by
  induction xs generalizing n with
  | nil => rfl
  | cons c xs ih =>
      rw [List.cons_append, readDigits, readDigits, Option.bind_assoc]
      exact Option.bind_congr fun d _ => ih _

theorem readDigits_toDigits (hbase : 1 < base) (hle : base ≤ 16) (n : Nat) :
    readDigits base 0 (Nat.toDigits base n) = some n := by
  induction n using Nat.strongRecOn with
  | ind n ih =>
      rcases Nat.lt_or_ge n base with hn | hn
      · rw [Nat.toDigits_of_lt_base hn]
        simp [readDigits, digitValue?_digitChar hle hn]
      · have hrest : n % base < base := Nat.mod_lt n (by omega)
        rw [toDigits_step hbase hn, readDigits_append,
          ih (n / base) (Nat.div_lt_self (by omega) hbase)]
        simp [readDigits, digitValue?_digitChar hle hrest, Nat.div_add_mod']

theorem mem_toDigits (hbase : 1 < base) {c : Char} (hc : c ∈ Nat.toDigits base n) :
    ∃ d < base, c = Nat.digitChar d := by
  induction n using Nat.strongRecOn with
  | ind n ih =>
      rcases Nat.lt_or_ge n base with hn | hn
      · rw [Nat.toDigits_of_lt_base hn] at hc
        exact ⟨n, hn, List.mem_singleton.mp hc⟩
      · rw [toDigits_step hbase hn, List.mem_append] at hc
        rcases hc with hc | hc
        · exact ih (n / base) (Nat.div_lt_self (by omega) hbase) hc
        · exact ⟨_, Nat.mod_lt n (by omega), List.mem_singleton.mp hc⟩

theorem length_toDigits_pos (base n : Nat) (hbase : 1 < base) :
    0 < (Nat.toDigits base n).length := by
  rcases Nat.lt_or_ge n base with hn | hn
  · simp [Nat.toDigits_of_lt_base hn]
  · simp [toDigits_step hbase hn]

theorem length_toDigits_le (hbase : 1 < base) {k : Nat} (hn : n < base ^ (k + 1)) :
    (Nat.toDigits base n).length ≤ k + 1 := by
  induction k generalizing n with
  | zero => simp [Nat.toDigits_of_lt_base (by simpa using hn)]
  | succ k ih =>
      rcases Nat.lt_or_ge n base with hlt | hge
      · simp [Nat.toDigits_of_lt_base hlt]
      · have hdiv : n / base < base ^ (k + 1) := by
          refine Nat.div_lt_of_lt_mul ?_
          rwa [Nat.mul_comm, ← Nat.pow_succ]
        have hrest := ih hdiv
        rw [toDigits_step hbase hge, List.length_append]
        simpa using hrest

theorem digitValue?_lt {c : Char} (h : digitValue? base c = some d) : d < base := by
  obtain ⟨m, -, hm⟩ := Option.bind_eq_some_iff.mp h
  split at hm <;> simp_all

theorem readDigits_lt {m : Nat} {cs : List Char} (h : readDigits base n cs = some m) :
    m < (n + 1) * base ^ cs.length := by
  induction cs generalizing n with
  | nil =>
      rw [readDigits] at h
      obtain rfl := Option.some.inj h
      simp
  | cons c cs ih =>
      rw [readDigits] at h
      obtain ⟨d, hd, h⟩ := Option.bind_eq_some_iff.mp h
      have hd := digitValue?_lt hd
      calc m
        _ < (n * base + d + 1) * base ^ cs.length := ih h
        _ ≤ ((n + 1) * base) * base ^ cs.length := by
            refine Nat.mul_le_mul_right _ ?_
            rw [Nat.add_mul, Nat.one_mul]
            omega
        _ = (n + 1) * base ^ (c :: cs).length := by
            rw [List.length_cons, Nat.pow_succ, Nat.mul_assoc, Nat.mul_comm base]

end Digits

section Groups

variable {gs : List Nat} {n : Nat}

def groupsText (gs : List Nat) : List Char := [':'].intercalate (gs.map hexText)

theorem splitOn_cons_of_ne {sep c : Char} (hc : c ≠ sep) {cs w : List Char} {ws : List (List Char)}
    (h : splitOn sep cs = w :: ws) : splitOn sep (c :: cs) = (c :: w) :: ws := by
  simp [splitOn, h, hc]

theorem splitOn_append {sep : Char} {a : List Char} (ha : sep ∉ a) {cs w : List Char}
    {ws : List (List Char)} (h : splitOn sep cs = w :: ws) :
    splitOn sep (a ++ cs) = (a ++ w) :: ws := by
  induction a with
  | nil => exact h
  | cons c a ih =>
      simp only [List.mem_cons, not_or] at ha
      exact splitOn_cons_of_ne (Ne.symm ha.1) (ih ha.2)

theorem splitOn_ne_nil (sep : Char) (cs : List Char) : splitOn sep cs ≠ [] := by
  cases cs with
  | nil => simp [splitOn]
  | cons c cs =>
      rw [splitOn]
      split
      · simp
      · split <;> simp

theorem splitOn_sep (sep : Char) (cs : List Char) :
    splitOn sep (sep :: cs) = [] :: splitOn sep cs := by
  cases h : splitOn sep cs with
  | nil => exact absurd h (splitOn_ne_nil sep cs)
  | cons w ws => simp [splitOn, h]

theorem splitOn_intercalate {sep : Char} {ws : List (List Char)} (hne : ws ≠ [])
    (h : ∀ w ∈ ws, sep ∉ w) : splitOn sep ([sep].intercalate ws) = ws := by
  induction ws with
  | nil => exact absurd rfl hne
  | cons w ws ih =>
      have hw := h w List.mem_cons_self
      cases ws with
      | nil =>
          have hlast : splitOn sep (w ++ []) = [w ++ []] := splitOn_append hw rfl
          simpa [List.intercalate] using hlast
      | cons x ws =>
          have hrest := ih (List.cons_ne_nil _ _) fun y hy => h y (List.mem_cons_of_mem w hy)
          have hstep : [sep].intercalate (w :: x :: ws) =
              w ++ sep :: [sep].intercalate (x :: ws) := by
            simp [List.intercalate]
          have hsplit := splitOn_append hw ((splitOn_sep sep ([sep].intercalate (x :: ws))))
          rw [hstep, hsplit, hrest, List.append_nil]

theorem mem_hexText {c : Char} (hc : c ∈ hexText n) : c ≠ ':' ∧ c ≠ '.' ∧ isHex c = true := by
  obtain ⟨d, hd, rfl⟩ := mem_toDigits (by decide) hc
  have hall : ∀ k : Fin 16, Nat.digitChar k ≠ ':' ∧ Nat.digitChar k ≠ '.' ∧
      isHex (Nat.digitChar k) = true := by decide
  exact hall ⟨d, hd⟩

theorem hexText_ne_nil (n : Nat) : hexText n ≠ [] :=
  List.ne_nil_of_length_pos (length_toDigits_pos 16 n (by decide))

theorem group?_hexText (hn : n < 65536) : group? (hexText n) = some n := by
  have hlength : (hexText n).length ≤ 4 := length_toDigits_le (k := 3) (by decide) hn
  have hread : readDigits 16 0 (hexText n) = some n :=
    readDigits_toDigits (by decide) (by decide) n
  rw [group?, if_neg, hread]
  simpa [hexText_ne_nil] using hlength

theorem groups?_map_hexText (tailAllowed : Bool) (hgs : ∀ g ∈ gs, g < 65536) :
    groups? tailAllowed (gs.map hexText) = some gs := by
  induction gs with
  | nil => rfl
  | cons g gs ih =>
      have hg := group?_hexText (hgs g List.mem_cons_self)
      have hrest := ih fun x hx => hgs x (List.mem_cons_of_mem g hx)
      cases gs with
      | nil =>
          have hdot : '.' ∉ hexText g := fun hmem => (mem_hexText hmem).2.1 rfl
          simp [groups?, hdot, hg]
      | cons x gs =>
          rw [List.map_cons, List.map_cons] at *
          rw [groups?, hg, Option.bind_some, hrest]
          · rfl
          · rintro ⟨⟩

theorem side?_groupsText (tailAllowed : Bool) (gs : List Nat) (hgs : ∀ g ∈ gs, g < 65536) :
    side? tailAllowed (groupsText gs) = some gs := by
  cases gs with
  | nil => rfl
  | cons g gs =>
      have hne : groupsText (g :: gs) ≠ [] := by
        cases gs <;> simp [groupsText, List.intercalate, hexText_ne_nil]
      have hcolon : ∀ w ∈ (g :: gs).map hexText, ':' ∉ w := by
        intro w hw hmem
        obtain ⟨n, -, rfl⟩ := List.mem_map.mp hw
        exact (mem_hexText hmem).1 rfl
      rw [side?, if_neg (by simpa using hne), groupsText,
        splitOn_intercalate (by simp) hcolon]
      exact groups?_map_hexText tailAllowed hgs

theorem doubleColon_cons {c : Char} {cs : List Char} (h : c = ':' → cs.head? ≠ some ':') :
    doubleColon (c :: cs) = (doubleColon cs).map fun p => (c :: p.1, p.2) := by
  rw [doubleColon]
  rintro cs rfl rfl
  exact h rfl rfl

theorem doubleColon_append {w : List Char} (hw : ':' ∉ w) (cs : List Char) :
    doubleColon (w ++ cs) = (doubleColon cs).map fun p => (w ++ p.1, p.2) := by
  induction w with
  | nil => simp
  | cons c w ih =>
      simp only [List.mem_cons, not_or] at hw
      rw [List.cons_append, doubleColon_cons fun hc => absurd hc.symm hw.1, ih hw.2, Option.map_map]
      rfl

theorem groupsText_cons (g x : Nat) (gs : List Nat) :
    groupsText (g :: x :: gs) = hexText g ++ ':' :: groupsText (x :: gs) := by
  simp [groupsText, List.intercalate]

theorem head_groupsText {g : Nat} {rest : List Char} :
    (groupsText (g :: gs) ++ rest).head? ≠ some ':' := by
  have hmem : ∀ c ∈ (hexText g).head?, c ≠ ':' := fun c hc =>
    (mem_hexText (List.mem_of_mem_head? hc)).1
  have hne := hexText_ne_nil g
  cases hhex : hexText g with
  | nil => exact absurd hhex hne
  | cons c cs =>
      have hc : c ≠ ':' := hmem c (by simp [hhex])
      cases gs with
      | nil => simpa [groupsText, List.intercalate, hhex] using hc
      | cons x gs => simpa [groupsText_cons, hhex] using hc

theorem doubleColon_groupsText (gs : List Nat) (rest : List Char) :
    doubleColon (groupsText gs ++ rest) =
      (doubleColon rest).map fun p => (groupsText gs ++ p.1, p.2) := by
  have hcolon (n : Nat) : ':' ∉ hexText n := fun hmem => (mem_hexText hmem).1 rfl
  induction gs with
  | nil => simp [groupsText, List.intercalate]
  | cons g gs ih =>
      cases gs with
      | nil =>
          have htext : groupsText [g] = hexText g := by simp [groupsText, List.intercalate]
          rw [htext, doubleColon_append (hcolon g)]
      | cons x gs =>
          rw [groupsText_cons, List.append_assoc, List.cons_append, doubleColon_append (hcolon g),
            doubleColon_cons fun _ => head_groupsText, ih, Option.map_map, Option.map_map]
          congr 1
          funext p
          simp

theorem take_of_zeroRuns {i r : Nat} (h : (zeroRuns gs)[i]? = some r) :
    (gs.drop i).take r = List.replicate r 0 := by
  induction gs generalizing i r with
  | nil => simp [zeroRuns] at h
  | cons g gs ih =>
      rw [zeroRuns] at h
      cases i with
      | succ i => exact ih (by simpa using h)
      | zero =>
          simp only [List.getElem?_cons_zero, Option.some.injEq] at h
          split at h
          · next hg =>
              subst hg h
              have hrun : (gs.take ((zeroRuns gs).headD 0)) =
                  List.replicate ((zeroRuns gs).headD 0) 0 := by
                cases hruns : zeroRuns gs with
                | nil => simp
                | cons r rs => simpa using ih (i := 0) (r := r) (by simp [hruns])
              rw [List.drop_zero, List.take_succ_cons, hrun]
              rfl
          · subst h
            simp

theorem foldl_max_mem (n : Nat) (xs : List Nat) : xs.foldl max n = n ∨ xs.foldl max n ∈ xs := by
  induction xs generalizing n with
  | nil => exact .inl rfl
  | cons x xs ih =>
      rw [List.foldl_cons]
      rcases ih (max n x) with h | h
      · rw [h]
        rcases Nat.le_total n x with hle | hle
        · exact .inr (by simp [Nat.max_eq_right hle])
        · exact .inl (Nat.max_eq_left hle)
      · exact .inr (List.mem_cons_of_mem x h)

theorem exists_of_longest (gs : List Nat) (h : 0 < (zeroRuns gs).foldl max 0) :
    gs = gs.take ((zeroRuns gs).idxOf ((zeroRuns gs).foldl max 0)) ++
      List.replicate ((zeroRuns gs).foldl max 0) 0 ++
      gs.drop ((zeroRuns gs).idxOf ((zeroRuns gs).foldl max 0) + (zeroRuns gs).foldl max 0) := by
  have hmem : (zeroRuns gs).foldl max 0 ∈ zeroRuns gs := by
    rcases foldl_max_mem 0 (zeroRuns gs) with h' | h'
    · omega
    · exact h'
  generalize (zeroRuns gs).foldl max 0 = longest at *
  have hlt := List.idxOf_lt_length_of_mem hmem
  have hget : (zeroRuns gs)[(zeroRuns gs).idxOf longest]? = some longest := by
    rw [List.getElem?_eq_getElem hlt, List.getElem_idxOf hlt]
  generalize (zeroRuns gs).idxOf longest = start at *
  rw [← take_of_zeroRuns hget, List.append_assoc, ← List.drop_drop, List.take_append_drop,
    List.take_append_drop]

theorem toList_groupsText (gs : List Nat) :
    (":".intercalate (gs.map fun g => String.ofList (hexText g))).toList = groupsText gs := by
  simp [groupsText, String.toList_intercalate, List.map_map, Function.comp_def]

theorem ipv6?_ipv6Text (hlength : gs.length = 8) (hgs : ∀ g ∈ gs, g < 65536) :
    ipv6? (ipv6Text gs).toList = some gs := by
  rw [ipv6Text]
  simp only
  split
  · have hnone : doubleColon (groupsText gs) = none := by
      simpa [doubleColon] using doubleColon_groupsText gs []
    have hread := side?_groupsText true gs hgs
    rw [side?] at hread
    split at hread
    · next hempty => simp_all
    · rw [toList_groupsText, ipv6?, hnone]
      simp [hread, hlength]
  · next hlongest =>
      have hzeros := exists_of_longest gs (by omega)
      generalize (zeroRuns gs).foldl max 0 = longest at *
      generalize (zeroRuns gs).idxOf longest = start at *
      rw [String.toList_append, String.toList_append, toList_groupsText, toList_groupsText]
      have hmarks : doubleColon (groupsText (gs.take start) ++ "::".toList ++
          groupsText (gs.drop (start + longest))) =
          some (groupsText (gs.take start), groupsText (gs.drop (start + longest))) := by
        rw [List.append_assoc, doubleColon_groupsText]
        simp [doubleColon]
      have hfront := side?_groupsText false (gs.take start) fun g hg =>
        hgs g (List.mem_of_mem_take hg)
      have hback := side?_groupsText true (gs.drop (start + longest)) fun g hg =>
        hgs g (List.mem_of_mem_drop hg)
      have hcount : (gs.take start).length + longest + (gs.drop (start + longest)).length = 8 := by
        have hlengths := congrArg List.length hzeros
        rw [hlength] at hlengths
        simp only [List.length_append, List.length_replicate] at hlengths
        exact hlengths.symm
      rw [ipv6?, hmarks]
      simp only [hfront, hback]
      rw [Option.bind_eq_bind, Option.bind_some, Option.bind_some, if_neg (by omega)]
      have hlong : 8 - (gs.take start).length - (gs.drop (start + longest)).length = longest := by
        omega
      rw [hlong, ← hzeros]
      rfl

theorem lt_of_group? {cs : List Char} {n : Nat} (h : group? cs = some n) : n < 65536 := by
  rw [group?] at h
  split at h
  · cases h
  · next hlength =>
      have hle : cs.length ≤ 4 := by simp at hlength; omega
      have hlt := readDigits_lt h
      have hpow : 16 ^ cs.length ≤ 16 ^ 4 := Nat.pow_le_pow_right (by decide) hle
      omega

theorem le_of_octet? {cs : List Char} {n : Nat} (h : octet? cs = some n) : n ≤ 255 := by
  rw [octet?] at h
  split at h
  · cases h
  · obtain ⟨m, -, hm⟩ := Option.bind_eq_some_iff.mp h
    split at hm
    · next hle =>
        obtain rfl := Option.some.inj hm
        exact hle
    · cases hm

theorem le_of_mapM_octet? {ws : List (List Char)} {ns : List Nat}
    (h : ws.mapM octet? = some ns) : ∀ n ∈ ns, n ≤ 255 := by
  induction ws generalizing ns with
  | nil =>
      obtain rfl : ns = [] := by simpa using h.symm
      simp
  | cons w ws ih =>
      rw [List.mapM_cons] at h
      obtain ⟨n, hn, h⟩ := Option.bind_eq_some_iff.mp h
      obtain ⟨ms, hms, h⟩ := Option.bind_eq_some_iff.mp h
      obtain rfl : n :: ms = ns := Option.some.inj h
      exact List.forall_mem_cons.mpr ⟨le_of_octet? hn, ih hms⟩

theorem lt_of_groups? {tailAllowed : Bool} {ws : List (List Char)}
    (h : groups? tailAllowed ws = some gs) : ∀ g ∈ gs, g < 65536 := by
  induction ws generalizing gs with
  | nil =>
      obtain rfl : [] = gs := Option.some.inj h
      simp
  | cons w ws ih =>
      cases ws with
      | nil =>
          rw [groups?] at h
          split at h
          · split at h
            · next a b c d hoctets =>
                have hle := le_of_mapM_octet? hoctets
                obtain rfl : [a * 256 + b, c * 256 + d] = gs := Option.some.inj h
                simp only [List.forall_mem_cons] at hle ⊢
                refine ⟨by omega, by omega, by simp⟩
            · cases h
          · obtain ⟨n, hn, rfl⟩ := Option.map_eq_some_iff.mp h
            simpa using lt_of_group? hn
      | cons x ws =>
          rw [groups?] at h
          · obtain ⟨n, hn, h⟩ := Option.bind_eq_some_iff.mp h
            obtain ⟨ms, hms, rfl⟩ := Option.map_eq_some_iff.mp h
            exact List.forall_mem_cons.mpr ⟨lt_of_group? hn, ih hms⟩
          · rintro ⟨⟩

theorem lt_of_side? {tailAllowed : Bool} {cs : List Char} (h : side? tailAllowed cs = some gs) :
    ∀ g ∈ gs, g < 65536 := by
  rw [side?] at h
  split at h
  · obtain rfl : [] = gs := Option.some.inj h
    simp
  · exact lt_of_groups? h

theorem ipv6?_spec {host : List Char} (h : ipv6? host = some gs) :
    gs.length = 8 ∧ ∀ g ∈ gs, g < 65536 := by
  rw [ipv6?] at h
  split at h
  · obtain ⟨ms, hms, h⟩ := Option.bind_eq_some_iff.mp h
    split at h
    · next hlength =>
        obtain rfl := Option.some.inj h
        exact ⟨hlength, lt_of_groups? hms⟩
    · cases h
  · obtain ⟨front, hfront, h⟩ := Option.bind_eq_some_iff.mp h
    obtain ⟨back, hback, h⟩ := Option.bind_eq_some_iff.mp h
    split at h
    · cases h
    · next hcount =>
        obtain rfl := Option.some.inj h
        refine ⟨by simp only [List.length_append, List.length_replicate]; omega, fun g hg => ?_⟩
        rw [List.mem_append, List.mem_append] at hg
        rcases hg with (hg | hg) | hg
        · exact lt_of_side? hfront g hg
        · have hzero : g = 0 := (List.mem_replicate.mp hg).2
          omega
        · exact lt_of_side? hback g hg

theorem mem_groupsText {c : Char} (hc : c ∈ groupsText gs) : c = ':' ∨ isHex c = true := by
  induction gs with
  | nil => simp [groupsText, List.intercalate] at hc
  | cons g gs ih =>
      cases gs with
      | nil =>
          have hc : c ∈ hexText g := by simpa [groupsText, List.intercalate] using hc
          exact .inr (mem_hexText hc).2.2
      | cons x gs =>
          rw [groupsText_cons, List.mem_append, List.mem_cons] at hc
          rcases hc with hc | hc | hc
          · exact .inr (mem_hexText hc).2.2
          · exact .inl hc
          · exact ih hc

theorem mem_ipv6Text {c : Char} (hc : c ∈ (ipv6Text gs).toList) : c = ':' ∨ isHex c = true := by
  rw [ipv6Text] at hc
  simp only at hc
  split at hc
  · rw [toList_groupsText] at hc
    exact mem_groupsText hc
  · rw [String.toList_append, String.toList_append, toList_groupsText, toList_groupsText,
      List.mem_append, List.mem_append] at hc
    rcases hc with (hc | hc) | hc
    · exact mem_groupsText hc
    · exact .inl (by simpa using hc)
    · exact mem_groupsText hc

end Groups

end LanguageService.Uri
