-- What is written of an address reads back as the address: octets and groups, the
-- four octets of the fourth version, the compressed groups of the sixth.
import Kervax.IpAddress
import Mathlib.Data.List.Nodup
import Mathlib.Data.List.Range

namespace IpAddress

/-! ## Numbers and their digits -/

theorem number_snoc (base : Nat) (ds : List Nat) (d : Nat) :
    number base (ds ++ [d]) = number base ds * base + d := by
  simp [number]

/-- The digits of a number, the highest first, spell it. -/
theorem number_digits (base n : Nat) : ∀ k,
    number base ((List.range k).map fun i => n / base ^ (k - 1 - i) % base) = n % base ^ k := by
  intro k
  induction k generalizing n with
  | zero => simp [number, Nat.mod_one]
  | succ k ih =>
    have hfirst : ((List.range k).map fun i => n / base ^ (k + 1 - 1 - i) % base) =
        (List.range k).map fun i => n / base / base ^ (k - 1 - i) % base := by
      refine List.map_congr_left fun i hi => ?_
      have hi := List.mem_range.mp hi
      have hexp : k + 1 - 1 - i = (k - 1 - i) + 1 := by omega
      rw [hexp, Nat.pow_succ', Nat.div_div_eq_div_mul]
    rw [List.range_succ, List.map_append, List.map_singleton, number_snoc, hfirst, ih,
      Nat.pow_succ', Nat.mod_mul]
    simp [Nat.mul_comm, Nat.add_comm]

theorem parseOctet_digits : ∀ n < 256, parseOctet (Nat.toDigits 10 n) = some n := by
  decide +kernel

theorem hexDigit_digitChar : ∀ n < 16, hexDigit? n.digitChar = some n := by
  decide +kernel

theorem mapM_hex (n : Nat) : ∃ ds, (hex n).mapM hexDigit? = some ds ∧ number 16 ds = n := by
  induction n using Nat.strongRecOn with
  | ind n ih =>
    unfold hex
    rw [Nat.toDigits_eq_if (by decide)]
    split
    · next hlt =>
      refine ⟨[n], ?_, by simp [number]⟩
      simp [hexDigit_digitChar n hlt]
    · next hge =>
      obtain ⟨ds, hds, hnum⟩ := ih (n / 16) (by omega)
      refine ⟨ds ++ [n % 16], ?_, ?_⟩
      · unfold hex at hds
        rw [List.mapM_append, hds]
        simp [hexDigit_digitChar (n % 16) (Nat.mod_lt n (by decide))]
      · rw [number_snoc, hnum]
        omega

theorem parseHextet_hex {n : Nat} (h : n < 65536) : parseHextet (hex n) = some n := by
  obtain ⟨ds, hds, hnum⟩ := mapM_hex n
  have hlen : (hex n).length ≤ 4 := (Nat.length_toDigits_le_iff (by decide) (by decide)).mpr h
  unfold parseHextet
  have hnot : ¬(hex n = [] ∨ 4 < (hex n).length) := by
    simp only [not_or, not_lt]
    exact ⟨Nat.toDigits_ne_nil, hlen⟩
  rw [if_neg hnot, hds, Option.map_some, hnum]

theorem hexDigit_of_mem_hex {n : Nat} {c : Char} (h : c ∈ hex n) : (hexDigit? c).isSome := by
  obtain ⟨ds, hds, -⟩ := mapM_hex n
  generalize hex n = s at h hds
  induction s generalizing ds with
  | nil => cases h
  | cons a s ih =>
    rw [List.mapM_cons] at hds
    cases ha : hexDigit? a with
    | none => simp [ha] at hds
    | some d =>
      rcases List.mem_cons.mp h with rfl | hin
      · simp [ha]
      · cases hs : s.mapM hexDigit? with
        | none => simp [ha, hs] at hds
        | some es => exact ih es hin hs

/-! ## The fourth version -/

theorem mapM_parse {f : List Char → Option Nat} {g : Nat → List Char} {ns : List Nat}
    (h : ∀ n ∈ ns, f (g n) = some n) : (ns.map g).mapM f = some ns := by
  induction ns with
  | nil => rfl
  | cons n ns ih =>
    rw [List.map_cons, List.mapM_cons, h n List.mem_cons_self,
      ih fun m hm => h m (List.mem_cons_of_mem _ hm)]
    rfl

theorem octets_lt (ip : BitVec 32) : ∀ n ∈ octets ip, n < 256 := by
  simp only [octets, List.mem_cons, List.not_mem_nil, or_false]
  omega

theorem number_octets (ip : BitVec 32) : number 256 (octets ip) = ip.toNat := by
  have h := ip.isLt
  simp only [number, octets, List.foldl_cons, List.foldl_nil]
  omega

theorem mem_intercalate {sep c : Char} {ls : List (List Char)} (h : c ∈ [sep].intercalate ls) :
    c = sep ∨ ∃ l ∈ ls, c ∈ l := by
  induction ls with
  | nil => simp [List.intercalate] at h
  | cons l ls ih =>
    cases ls with
    | nil => exact .inr ⟨l, by simp, by simpa [List.intercalate] using h⟩
    | cons m ls =>
      have hl : [sep].intercalate (l :: m :: ls) = l ++ sep :: [sep].intercalate (m :: ls) := by
        simp [List.intercalate]
      rw [hl] at h
      rcases List.mem_append.mp h with hin | hin
      · exact .inr ⟨l, by simp, hin⟩
      · rcases List.mem_cons.mp hin with rfl | hin
        · exact .inl rfl
        · rcases ih hin with hsep | ⟨k, hk, hck⟩
          · exact .inl hsep
          · exact .inr ⟨k, List.mem_cons_of_mem _ hk, hck⟩

/-- The text of the fourth version has digits and dots. -/
theorem mem_writeV4 {ip : BitVec 32} {c : Char} (h : c ∈ writeV4 ip) : c = '.' ∨ c.isDigit = true := by
  rcases mem_intercalate h with hdot | ⟨l, hl, hc⟩
  · exact .inl hdot
  · obtain ⟨n, -, rfl⟩ := List.mem_map.mp hl
    rw [Nat.toList_repr] at hc
    exact .inr (Nat.isDigit_of_mem_toDigits (by decide) (by decide) hc)

theorem readV4_writeV4 (ip : BitVec 32) : readV4 (writeV4 ip) = some ip := by
  have hslash : '/' ∉ writeV4 ip := by
    intro h
    rcases mem_writeV4 h with h | h <;> revert h <;> decide
  have hsplit : (writeV4 ip).splitOn '.' = (octets ip).map fun n => (Nat.repr n).toList := by
    refine List.splitOn_intercalate '.' ?_ (by simp [octets])
    intro l hl hdot
    obtain ⟨n, -, rfl⟩ := List.mem_map.mp hl
    rw [Nat.toList_repr] at hdot
    have := Nat.isDigit_of_mem_toDigits (by decide) (by decide) hdot
    revert this
    decide
  have hparse : ((octets ip).map fun n => (Nat.repr n).toList).mapM parseOctet =
      some (octets ip) := by
    refine mapM_parse fun n hn => ?_
    rw [Nat.toList_repr]
    exact parseOctet_digits n (octets_lt ip n hn)
  unfold readV4
  rw [if_neg hslash, hsplit, hparse]
  simp only [Option.bind_eq_bind, Option.bind_some]
  rw [if_pos (by rfl), number_octets, BitVec.ofNat_toNat, BitVec.setWidth_eq]

/-! ## The groups of the sixth version -/

theorem groups_lt (ip : BitVec 128) : ∀ g ∈ groups ip, g < 65536 := by
  intro g hg
  obtain ⟨i, -, rfl⟩ := List.mem_map.mp hg
  exact Nat.mod_lt _ (by decide)

theorem length_groups (ip : BitVec 128) : (groups ip).length = 8 := by
  simp [groups]

theorem number_groups (ip : BitVec 128) : number 65536 (groups ip) = ip.toNat := by
  have h := number_digits 65536 ip.toNat 8
  rw [Nat.mod_eq_of_lt (by have := ip.isLt; omega)] at h
  exact h

/-- A run of zeros in the groups. -/
structure Run (gs : List Nat) (run : Nat × Nat) : Prop where
  inside : run.1 + run.2 ≤ gs.length
  zeros : ∀ i, run.1 ≤ i → i < run.1 + run.2 → gs[i]? = some 0

theorem Run.snoc {gs : List Nat} {run : Nat × Nat} (h : Run gs run) (g : Nat) :
    Run (gs ++ [g]) run := by
  refine ⟨?_, fun i h1 h2 => ?_⟩
  · have := h.inside
    simp only [List.length_append, List.length_singleton]
    omega
  · have := h.inside
    rw [List.getElem?_append_left (by omega)]
    exact h.zeros i h1 h2

/-- One turn of the pass: the best run, and the run that is open at the end. -/
def zeroTurn (p : (Nat × Nat) × Nat) (x : Nat × Nat) : (Nat × Nat) × Nat :=
  if x.1 = 0 then (if p.1.2 < p.2 + 1 then (x.2 - p.2, p.2 + 1) else p.1, p.2 + 1) else (p.1, 0)

theorem longestZeros_eq (gs : List Nat) :
    longestZeros gs = (gs.zipIdx.foldl zeroTurn ((0, 0), 0)).1 := rfl

theorem zeroTurns_run (gs : List Nat) :
    Run gs (gs.zipIdx.foldl zeroTurn ((0, 0), 0)).1 ∧
      (gs.zipIdx.foldl zeroTurn ((0, 0), 0)).2 ≤ gs.length ∧
      Run gs (gs.length - (gs.zipIdx.foldl zeroTurn ((0, 0), 0)).2,
        (gs.zipIdx.foldl zeroTurn ((0, 0), 0)).2) := by
  induction gs using List.reverseRecOn with
  | nil => exact ⟨⟨by simp, by simp⟩, by simp, ⟨by simp, by simp⟩⟩
  | append_singleton gs g ih =>
    rw [List.zipIdx_append, List.foldl_append]
    generalize gs.zipIdx.foldl zeroTurn ((0, 0), 0) = p at ih
    obtain ⟨hbest, hle, hopen⟩ := ih
    simp only [List.zipIdx_singleton, Nat.zero_add, List.foldl_cons, List.foldl_nil, zeroTurn,
      List.length_append, List.length_singleton]
    have hgrown (hg : g = 0) : Run (gs ++ [g]) (gs.length - p.2, p.2 + 1) := by
      refine ⟨by simp only [List.length_append, List.length_singleton]; omega, fun i h1 h2 => ?_⟩
      simp only at h1 h2
      by_cases hi : i < gs.length
      · rw [List.getElem?_append_left hi]
        exact hopen.zeros i h1 (by simp only; omega)
      · have hlast : i = gs.length := by omega
        simp [hlast, hg]
    split
    · next hg =>
      have hlen : gs.length + 1 - (p.2 + 1) = gs.length - p.2 := by omega
      refine ⟨?_, by simpa using hle, by rw [hlen]; exact hgrown hg⟩
      split
      · exact hgrown hg
      · exact hbest.snoc g
    · exact ⟨hbest.snoc g, by simp, ⟨by simp, fun i h1 h2 => by simp only at h1 h2; omega⟩⟩

theorem longestZeros_run (gs : List Nat) : Run gs (longestZeros gs) := by
  rw [longestZeros_eq]
  exact (zeroTurns_run gs).1

/-- The groups are what stands before a run of zeros, the zeros, and what stands after. -/
theorem Run.split {gs : List Nat} {run : Nat × Nat} (h : Run gs run) :
    gs.take run.1 ++ List.replicate run.2 0 ++ gs.drop (run.1 + run.2) = gs := by
  have hmid : List.replicate run.2 0 = (gs.drop run.1).take run.2 := by
    apply List.ext_getElem?
    intro i
    rw [List.getElem?_replicate, List.getElem?_take]
    split
    · next hi => rw [List.getElem?_drop, h.zeros _ (by omega) (by omega)]
    · rfl
  rw [hmid, List.append_assoc, ← List.drop_drop, List.take_append_drop, List.take_append_drop]

/-! ## The text of the sixth version -/

theorem hex_ne_nil (n : Nat) : hex n ≠ [] := Nat.toDigits_ne_nil

/-- The parts of the groups at one side of the `::`: at an end of the text it stands
alone. -/
def side (gs : List Nat) : List (List Char) := if gs = [] then [[]] else gs.map hex

theorem length_side (gs : List Nat) : (side gs).length = max 1 gs.length := by
  unfold side
  split
  · next h => simp [h]
  · next h =>
    have := List.length_pos_iff.mpr h
    rw [List.length_map]
    omega

theorem compress_eq {gs : List Nat} (hlen : 1 < (longestZeros gs).2) :
    compress gs = side (gs.take (longestZeros gs).1) ++
      [] :: side (gs.drop ((longestZeros gs).1 + (longestZeros gs).2)) := by
  have hin := (longestZeros_run gs).inside
  unfold compress
  generalize longestZeros gs = run at hlen hin
  obtain ⟨start, len⟩ := run
  simp only at hlen hin ⊢
  have hne : gs ≠ [] := by rintro rfl; simp at hin; omega
  have htake : gs.take start = [] ↔ start = 0 := by simp [hne]
  have hdrop : gs.drop (start + len) = [] ↔ start + len = gs.length := by
    rw [List.drop_eq_nil_iff]
    omega
  have hA : side (gs.take start) = if start = 0 then [[]] else (gs.map hex).take start := by
    simp only [side, htake, List.map_take]
  have hB : side (gs.drop (start + len)) =
      if start + len = gs.length then [[]] else (gs.map hex).drop (start + len) := by
    simp only [side, hdrop, List.map_drop]
  have hend (h : start + len = gs.length) : (gs.map hex).drop (start + len) = [] := by
    rw [h, List.drop_eq_nil_iff, List.length_map]
  rw [if_neg (by omega), hA, hB]
  by_cases h0 : start = 0 <;> by_cases h1 : start + len = gs.length
  · rw [if_pos h0, if_pos h1, if_pos h1, if_pos h0, hend h1, h0]
    rfl
  · rw [if_pos h0, if_neg h1, if_neg h1, if_pos h0, h0]
    simp
  · rw [if_neg h0, if_pos h1, if_pos h1, if_neg h0, hend h1]
    simp
  · rw [if_neg h0, if_neg h1, if_neg h1, if_neg h0]
    simp

theorem filter_range {n k : Nat} {p : Nat → Bool} (hk : k < n) (hp : p k = true)
    (hone : ∀ i < n, p i = true → i = k) : (List.range n).filter p = [k] := by
  rw [← List.perm_singleton, List.perm_ext_iff_of_nodup (List.nodup_range.filter _) (by simp)]
  intro i
  rw [List.mem_filter, List.mem_range, List.mem_singleton]
  constructor
  · exact fun h => hone i h.1 h.2
  · rintro rfl
    exact ⟨hk, hp⟩

/-- Inside one side, not counting its outer end, no part is empty. -/
theorem side_getElem_ne {gs : List Nat} {i : Nat} (h : i ≠ 0 ∨ i + 1 < (side gs).length) :
    (side gs)[i]? ≠ some [] := by
  intro hi
  have hlt := (List.getElem?_eq_some_iff.mp hi).1
  rw [length_side] at hlt h
  unfold side at hi
  split at hi
  · next hnil =>
    simp only [hnil, List.length_nil] at hlt h
    omega
  · rw [List.getElem?_map, Option.map_eq_some_iff] at hi
    obtain ⟨g, -, hg⟩ := hi
    exact hex_ne_nil g hg

theorem side_head {gs : List Nat} : (side gs).head? = some [] ↔ gs = [] := by
  unfold side
  split
  · next h => simp [h]
  · next h =>
    cases gs with
    | nil => exact absurd rfl h
    | cons g gs => simp [hex_ne_nil]

theorem side_getLast {gs : List Nat} : (side gs).getLast? = some [] ↔ gs = [] := by
  unfold side
  split
  · next h => simp [h]
  · next h =>
    rcases List.eq_nil_or_concat gs with rfl | ⟨l, g, rfl⟩
    · exact absurd rfl h
    · simp [hex_ne_nil]

/-- The layout of two sides around the `::`. -/
theorem layout_sides {A B : List Nat} (h : A.length + B.length < 8) :
    layout (side A ++ [] :: side B) =
      some ⟨A.length, B.length, 8 - (A.length + B.length)⟩ := by
  have hlenA := length_side A
  have hlenB := length_side B
  have hlen : (side A ++ [] :: side B).length = (side A).length + (side B).length + 1 := by
    simp only [List.length_append, List.length_cons]
    omega
  have hfilter : ((List.range (side A ++ [] :: side B).length).filter fun i =>
      0 < i ∧ i + 1 < (side A ++ [] :: side B).length ∧
        (side A ++ [] :: side B)[i]? = some []) = [(side A).length] := by
    rw [hlen]
    apply filter_range
    · omega
    · simp only [decide_eq_true_eq]
      refine ⟨by omega, by omega, ?_⟩
      rw [List.getElem?_append_right (le_refl _), Nat.sub_self]
      rfl
    · intro i hi hp
      simp only [decide_eq_true_eq] at hp
      obtain ⟨hpos, hlast, hnil⟩ := hp
      rcases Nat.lt_trichotomy i (side A).length with hlt | heq | hgt
      · rw [List.getElem?_append_left hlt] at hnil
        exact absurd hnil (side_getElem_ne (.inl (by omega)))
      · exact heq
      · obtain ⟨j, rfl⟩ : ∃ j, i = (side A).length + (j + 1) := ⟨i - (side A).length - 1, by omega⟩
        rw [List.getElem?_append_right (by omega), Nat.add_sub_cancel_left,
          List.getElem?_cons_succ] at hnil
        exact absurd hnil (side_getElem_ne (.inr (by omega)))
  have hhead : (side A ++ [] :: side B).head? = some [] ↔ A = [] := by
    rw [List.head?_append_of_ne_nil _ (List.length_pos_iff.mp (by omega)), side_head]
  have hlast : (side A ++ [] :: side B).getLast? = some [] ↔ B = [] := by
    have hne : side B ≠ [] := List.length_pos_iff.mp (by omega)
    have hassoc : side A ++ [] :: side B = (side A ++ [[]]) ++ side B := by simp
    rw [← side_getLast, hassoc, List.getLast?_append, List.getLast?_eq_some_getLast hne]
    rfl
  unfold layout
  rw [hfilter]
  simp only [hhead, hlast, hlen]
  have hA : A = [] ↔ A.length = 0 := List.length_eq_zero_iff.symm
  have hB : B = [] ↔ B.length = 0 := List.length_eq_zero_iff.symm
  simp only [hA, hB]
  have hhi : (if A.length = 0 then (side A).length - 1 else (side A).length) = A.length := by
    split <;> omega
  have hlo : (if B.length = 0 then (side A).length + (side B).length + 1 - (side A).length - 2
      else (side A).length + (side B).length + 1 - (side A).length - 1) = B.length := by
    split <;> omega
  rw [hhi, hlo, if_neg (by omega), if_neg (by omega), if_neg (by omega)]

/-- The layout of eight groups without a `::`. -/
theorem layout_full {gs : List Nat} (h : gs.length = 8) :
    layout (gs.map hex) = some ⟨8, 0, 0⟩ := by
  have hno (i : Nat) : (gs.map hex)[i]? ≠ some [] := by
    rw [List.getElem?_map]
    intro hi
    obtain ⟨g, -, hg⟩ := Option.map_eq_some_iff.mp hi
    exact hex_ne_nil g hg
  have hfilter : ((List.range (gs.map hex).length).filter fun i =>
      0 < i ∧ i + 1 < (gs.map hex).length ∧ (gs.map hex)[i]? = some []) = [] := by
    rw [List.filter_eq_nil_iff]
    intro i _ hi
    exact hno i (of_decide_eq_true hi).2.2
  have hhead : (gs.map hex).head? ≠ some [] := by
    rw [List.head?_eq_getElem?]
    exact hno 0
  have hlast : (gs.map hex).getLast? ≠ some [] := by
    rw [List.getLast?_eq_getElem?]
    exact hno _
  unfold layout
  rw [hfilter]
  simp only
  rw [if_pos ⟨by simp [h], hhead, hlast⟩]

/-- Parts that are groups or empty stand between colons, and none has a dot. -/
theorem parts_intercalate {ps : List (List Char)} (hlen : 3 ≤ ps.length)
    (hps : ∀ p ∈ ps, p = [] ∨ ∃ g, p = hex g) : parts ([':'].intercalate ps) = some ps := by
  have hnot {c : Char} (hc : hexDigit? c = none) : ∀ p ∈ ps, c ∉ p := by
    intro p hp hin
    rcases hps p hp with rfl | ⟨g, rfl⟩
    · cases hin
    · have := hexDigit_of_mem_hex hin
      rw [hc] at this
      cases this
  unfold parts
  rw [List.splitOn_intercalate ':' (hnot (by decide)) (List.length_pos_iff.mp (by omega))]
  simp only
  rw [if_neg (by omega), if_neg]
  rw [List.getLastD_eq_getLast?]
  cases hl : ps.getLast? with
  | none => simp
  | some p => exact hnot (by decide) p (List.mem_of_getLast? hl)

/-- What is read from parts with a layout. -/
theorem readV6_of_layout (ps : List (List Char)) (his los : List Nat) {l : Layout}
    (hlen : 3 ≤ ps.length ∧ ps.length ≤ 9) (hps : ∀ p ∈ ps, p = [] ∨ ∃ g, p = hex g)
    (hlayout : layout ps = some l) (hhi : (ps.take l.hi).mapM parseHextet = some his)
    (hlo : (ps.drop (ps.length - l.lo)).mapM parseHextet = some los) :
    readV6 ([':'].intercalate ps) =
      some (BitVec.ofNat 128 (number 65536 (his ++ List.replicate l.skipped 0 ++ los))) := by
  unfold readV6
  rw [parts_intercalate hlen.1 hps]
  simp only [Option.bind_eq_bind, Option.bind_some]
  rw [if_neg (by omega), hlayout]
  simp only [Option.bind_some]
  rw [hhi, hlo]
  rfl

theorem mem_side {gs : List Nat} {p : List Char} (h : p ∈ side gs) : p = [] ∨ ∃ g, p = hex g := by
  unfold side at h
  split at h
  · exact .inl (List.mem_singleton.mp h)
  · obtain ⟨g, -, rfl⟩ := List.mem_map.mp h
    exact .inr ⟨g, rfl⟩

theorem take_side (gs : List Nat) (ps : List (List Char)) :
    (side gs ++ ps).take gs.length = gs.map hex := by
  unfold side
  split
  · next h => simp [h]
  · exact List.take_left' (by simp)

theorem drop_side (gs : List Nat) (ps : List (List Char)) :
    (ps ++ [] :: side gs).drop ((ps ++ [] :: side gs).length - gs.length) = gs.map hex := by
  have hlen := length_side gs
  by_cases h : gs = []
  · simp [h]
  · have hside : side gs = gs.map hex := if_neg h
    rw [hside]
    have hsplit : ps ++ [] :: gs.map hex = (ps ++ [[]]) ++ gs.map hex := by simp
    rw [hsplit]
    refine List.drop_left' ?_
    simp only [List.length_append, List.length_map, List.length_singleton]
    omega

/-- The groups, with a run of zeros compressed, read back. -/
theorem readV6_compress (ip : BitVec 128) :
    readV6 ([':'].intercalate (compress (groups ip))) = some ip := by
  have hlen := length_groups ip
  have hrun := longestZeros_run (groups ip)
  have hsplit := hrun.split
  have hin := hrun.inside
  have hparse (ns : List Nat) (hns : ∀ n ∈ ns, n ∈ groups ip) :
      (ns.map hex).mapM parseHextet = some ns :=
    mapM_parse fun n hn => parseHextet_hex (groups_lt ip n (hns n hn))
  have hback : BitVec.ofNat 128 (number 65536 (groups ip)) = ip := by
    rw [number_groups, BitVec.ofNat_toNat, BitVec.setWidth_eq]
  by_cases hone : (longestZeros (groups ip)).2 ≤ 1
  · have hcompress : compress (groups ip) = (groups ip).map hex := by
      unfold compress
      simp only
      rw [if_pos hone]
    have hread := readV6_of_layout ((groups ip).map hex) (groups ip) []
      (by simp [hlen]) (fun p hp => ?_) (layout_full hlen) ?_ ?_
    · rw [hcompress, hread]
      simp [hback]
    · obtain ⟨g, -, rfl⟩ := List.mem_map.mp hp
      exact .inr ⟨g, rfl⟩
    · rw [List.take_of_length_le (by simp [hlen])]
      exact hparse _ fun n hn => hn
    · have hdrop : ((groups ip).map hex).drop (((groups ip).map hex).length - 0) = [] := by simp
      rw [hdrop]
      rfl
  · have hcompress := compress_eq (not_le.mp hone)
    generalize longestZeros (groups ip) = run at hone hcompress hsplit hin
    obtain ⟨start, len⟩ := run
    simp only at hone hcompress hsplit hin
    have hA : ((groups ip).take start).length = start := by rw [List.length_take]; omega
    have hB : ((groups ip).drop (start + len)).length = 8 - (start + len) := by
      rw [List.length_drop, hlen]
    rw [hcompress]
    have hlenA := length_side ((groups ip).take start)
    have hlenB := length_side ((groups ip).drop (start + len))
    have hread := readV6_of_layout
      (side ((groups ip).take start) ++ [] :: side ((groups ip).drop (start + len)))
      ((groups ip).take start) ((groups ip).drop (start + len)) ?_ (fun p hp => ?_)
      (layout_sides (by omega)) ?_ ?_
    · rw [hread]
      have hskip : 8 - (((groups ip).take start).length + ((groups ip).drop (start + len)).length) =
          len := by omega
      simp only [hskip, hsplit, hback]
    · rw [List.length_append, List.length_cons]
      omega
    · rcases List.mem_append.mp hp with hp | hp
      · exact mem_side hp
      · rcases List.mem_cons.mp hp with rfl | hp
        · exact .inl rfl
        · exact mem_side hp
    · simp only [take_side]
      exact hparse _ fun n hn => List.mem_of_mem_take hn
    · simp only [drop_side]
      exact hparse _ fun n hn => List.mem_of_mem_drop hn

/-- A text without a dot is none of the fourth version. -/
theorem readV4_of_no_dot {s : List Char} (h : '.' ∉ s) : readV4 s = none := by
  unfold readV4
  rw [List.splitOn_eq_singleton h]
  split
  · rfl
  · cases ho : parseOctet s <;> simp [ho]

theorem mem_compress {gs : List Nat} {p : List Char} (h : p ∈ compress gs) :
    p = [] ∨ ∃ g, p = hex g := by
  by_cases hone : (longestZeros gs).2 ≤ 1
  · unfold compress at h
    simp only at h
    rw [if_pos hone] at h
    obtain ⟨g, -, rfl⟩ := List.mem_map.mp h
    exact .inr ⟨g, rfl⟩
  · rw [compress_eq (not_le.mp hone)] at h
    rcases List.mem_append.mp h with h | h
    · exact mem_side h
    · rcases List.mem_cons.mp h with rfl | h
      · exact .inl rfl
      · exact mem_side h

theorem dot_notMem_compress (ip : BitVec 128) :
    '.' ∉ [':'].intercalate (compress (groups ip)) := by
  intro h
  rcases mem_intercalate h with hsep | ⟨p, hp, hc⟩
  · cases hsep
  · rcases mem_compress hp with rfl | ⟨g, rfl⟩
    · cases hc
    · have hdigit := hexDigit_of_mem_hex hc
      revert hdigit
      decide

end IpAddress
