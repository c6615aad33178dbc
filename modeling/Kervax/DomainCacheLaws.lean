-- A manual check and the cache of the domain terms: when the domain that the next probe looks
-- up is forgotten, and no other one.
import Kervax.DomainCache
import Kervax.IpAddressLaws

namespace Kervax.DomainCache

/-! ## Hosts and their parents -/

theorem covers_iff {host key : List Char} :
    covers host key = true ↔ host = key ∨ '.' :: key <:+ host := by
  unfold covers Texts.endsWith
  rw [Bool.or_eq_true, decide_eq_true_eq, List.isSuffixOf_iff_suffix]

theorem covers_refl (host : List Char) : covers host host = true := covers_iff.mpr (.inl rfl)

theorem covers_trans {a b c : List Char} (hab : covers a b = true) (hbc : covers b c = true) :
    covers a c = true := by
  rw [covers_iff] at *
  rcases hab with rfl | hab
  · exact hbc
  · rcases hbc with rfl | hbc
    · exact .inr hab
    · exact .inr ((hbc.trans (List.suffix_cons '.' b)).trans hab)

theorem covers_subset {host key : List Char} (h : covers host key = true) : key ⊆ host := by
  rw [covers_iff] at h
  rcases h with rfl | h
  · exact fun _ hc => hc
  · exact fun c hc => h.subset (List.mem_cons_of_mem '.' hc)

/-! ## What a manual check forgets -/

/-- After a manual check the next probe finds nothing in the cache, and what is forgotten is the
host or a parent of it. -/
structure Forgotten (w : Outside) (target : List Char) : Prop where
  asked : ∀ cache key, registrableDomain w target = some key →
    key ∉ Dict.keys (forgetDomain w target cache)
  kept : ∀ cache host, hostOf w target = some host →
    ∀ e ∈ cache, e ∉ forgetDomain w target cache → covers host e.1 = true

/-- The bare text of a target, up to a slash or a colon, is the host or a parent of it that the
registrable domain ends. -/
def Agrees (w : Outside) (target : List Char) : Prop :=
  ∀ host, hostOf w target = some host →
    covers host (forgetHost w target) = true ∧
      covers (forgetHost w target) (registrable host) = true

theorem mem_forget {w : Outside} {target : List Char} {cache : Cache} {e : List Char × Entry} :
    e ∈ forgetDomain w target cache ↔ e ∈ cache ∧ covers (forgetHost w target) e.1 = false := by
  unfold forgetDomain
  rw [List.mem_filter, Bool.not_eq_true']

theorem forgotten_iff (w : Outside) (target : List Char) : Forgotten w target ↔ Agrees w target := by
  constructor
  · intro h host hhost
    -- a cache with the key in question alone
    obtain ⟨e⟩ : Nonempty Entry := ⟨⟨none, "", 0⟩⟩
    have hentry : ∀ key : List Char, (key, e) ∈ [(key, e)] := fun _ => List.mem_cons_self
    have hkept := h.kept [(forgetHost w target, e)] host hhost (forgetHost w target, e) (hentry _)
    refine ⟨hkept ?_, ?_⟩
    · rw [mem_forget, covers_refl]
      exact fun hin => Bool.false_ne_true hin.2.symm
    · have hgone := h.asked [(registrable host, e)] (registrable host)
        (by rw [registrableDomain, hhost]; rfl)
      by_contra hno
      have hin := mem_forget.mpr ⟨hentry (registrable host), Bool.eq_false_iff.mpr hno⟩
      exact hgone (List.mem_map_of_mem hin)
  · intro h
    refine ⟨fun cache key hkey hin => ?_, fun cache host hhost e he hout => ?_⟩
    · obtain ⟨host, hhost, rfl⟩ := Option.map_eq_some_iff.mp hkey
      obtain ⟨e, he, heq⟩ := List.mem_map.mp hin
      have hfalse := (mem_forget.mp he).2
      rw [heq, (h host hhost).2] at hfalse
      cases hfalse
    · rw [mem_forget, not_and, Bool.not_eq_false] at hout
      exact covers_trans (h host hhost).1 (hout he)

/-- A probe after a manual check asks the registry. -/
theorem asks_again {w : Outside} {target key : List Char} (h : Forgotten w target)
    (hkey : registrableDomain w target = some key) (ask : List Char → Option Int × String)
    (cache : Cache) (now : ℚ) :
    (domainDaysCached ask (forgetDomain w target cache) now key).1 = ask key := by
  have hnone : (forgetDomain w target cache).lookup key = none := by
    rw [List.lookup_eq_none_iff]
    intro e he
    have hne : key ≠ e.1 := fun heq => h.asked cache key hkey (heq ▸ List.mem_map_of_mem he)
    simpa using hne
  unfold domainDaysCached domainCacheGet
  rw [hnone]

/-! ## Small letters -/

/-- A character of a name: no mark and no blank. -/
def nameChar (c : Char) : Bool := c ∉ marks && !isSpace c

theorem nameChar_space {c : Char} (h : nameChar c = true) : isSpace c = false := by
  unfold nameChar at h
  simpa using (Bool.and_eq_true_iff.mp h).2

theorem nameChar_mark {c : Char} (h : nameChar c = true) : c ∉ marks := by
  unfold nameChar at h
  simpa using (Bool.and_eq_true_iff.mp h).1

theorem small_ascii : ∀ n : Fin 128, (Char.ofNat n).toLower.toNat < 128 ∧
    (Char.ofNat n).toLower.toLower = (Char.ofNat n).toLower ∧
    (isSpace (Char.ofNat n) = false → isSpace (Char.ofNat n).toLower = false) ∧
    (marks.all fun m => (Char.ofNat n).toLower = m ↔ Char.ofNat n = m) = true := by
  decide +kernel

theorem toLower_small {c : Char} (h : c.toNat < 128) : c.toLower.toNat < 128 ∧
    c.toLower.toLower = c.toLower ∧ (isSpace c = false → isSpace c.toLower = false) ∧
    ∀ m ∈ marks, c.toLower = m ↔ c = m := by
  obtain ⟨hlt, hlower, hspace, hmarks⟩ := small_ascii ⟨c.toNat, h⟩
  simp only [Char.ofNat_toNat] at hlt hlower hspace hmarks
  exact ⟨hlt, hlower, hspace, Texts.forall_mem hmarks⟩

theorem lower_append (w : Outside) (s t : List Char) : lower w (s ++ t) = lower w s ++ lower w t :=
  List.flatMap_append

theorem lower_ascii (w : Outside) {c : Char} (h : c.toNat < 128) : lower w [c] = [c.toLower] := by
  simp [lower, h]

theorem lower_beyond (w : Outside) {c : Char} (h : ¬ c.toNat < 128) :
    lower w [c] = w.lower c := by
  simp [lower, h]

/-- Small letters neither make a mark nor take one away. -/
theorem mark_mem_lower (w : Outside) {m : Char} (hm : m ∈ marks) (s : List Char) :
    m ∈ lower w s ↔ m ∈ s := by
  have hone : ∀ c, m ∈ lower w [c] ↔ c = m := by
    intro c
    by_cases hlt : c.toNat < 128
    · rw [lower_ascii w hlt, List.mem_singleton, eq_comm]
      exact (toLower_small hlt).2.2.2 m hm
    · rw [lower_beyond w hlt]
      have hascii : ∀ m ∈ marks, m.toNat < 128 := Texts.forall_mem (by decide)
      constructor
      · exact fun hin => absurd hm (w.lower_mark c (by omega) m hin)
      · exact fun heq => absurd (hascii m hm) (heq ▸ hlt)
  induction s with
  | nil => exact Iff.rfl
  | cons c s ih =>
    have hsplit : lower w (c :: s) = lower w [c] ++ lower w s := lower_append w [c] s
    rw [hsplit, List.mem_append, hone, List.mem_cons]
    exact or_congr eq_comm ih

theorem lower_nameChar (w : Outside) {s : List Char} (h : ∀ c ∈ s, nameChar c = true) :
    ∀ d ∈ lower w s, nameChar d = true := by
  intro d hd
  have hmark : d ∉ marks := fun hm =>
    nameChar_mark (h d ((mark_mem_lower w hm s).mp hd)) hm
  have hspace : isSpace d = false := by
    obtain ⟨c, hc, hdc⟩ := List.mem_flatMap.mp hd
    split at hdc
    · next hlt =>
      rw [List.mem_singleton.mp hdc]
      exact (toLower_small hlt).2.2.1 (nameChar_space (h c hc))
    · next hge => exact w.lower_blank c (by omega) (nameChar_space (h c hc)) d hdc
  simp [nameChar, hmark, hspace]

theorem lower_lower (w : Outside) (s : List Char) : lower w (lower w s) = lower w s := by
  induction s with
  | nil => rfl
  | cons c s ih =>
    have hone : lower w (lower w [c]) = lower w [c] := by
      by_cases hlt : c.toNat < 128
      · have hsmall := toLower_small hlt
        rw [lower_ascii w hlt, lower_ascii w hsmall.1, hsmall.2.1]
      · rw [lower_beyond w hlt]
        unfold lower
        conv_rhs => rw [← List.flatMap_singleton' (w.lower c)]
        exact List.flatMap_congr (w.lower_lower c (by omega))
    have hsplit : lower w (c :: s) = lower w [c] ++ lower w s := lower_append w [c] s
    rw [hsplit, lower_append, hone, ih]

/-! ## The labels of a host -/

/-- The labels with dots between them. -/
def dotted (labels : List (List Char)) : List Char := ['.'].intercalate labels

/-- Labels, as they stand in a name. -/
def Labels (labels : List (List Char)) : Prop :=
  ∀ l ∈ labels, l ≠ [] ∧ ∀ c ∈ l, nameChar c = true

theorem dotted_cons {l : List Char} {ls : List (List Char)} (h : ls ≠ []) :
    dotted (l :: ls) = l ++ '.' :: dotted ls := by
  unfold dotted
  rw [List.intercalate_cons_of_ne_nil h, List.append_assoc, List.singleton_append]

theorem dotted_one (l : List Char) : dotted [l] = l := by simp [dotted, List.intercalate]

theorem dot_no_name : nameChar '.' = false := by decide

theorem not_dot {s : List Char} (h : ∀ c ∈ s, nameChar c = true) : '.' ∉ s := by
  intro hin
  have hdot := h '.' hin
  rw [dot_no_name] at hdot
  cases hdot

theorem nameChar_dot {c : Char} (h : nameChar c = true) : decide (c = '.') = false := by
  refine decide_eq_false ?_
  rintro rfl
  exact nameChar_mark h (by decide)

/-- The last labels of a name are a parent of it. -/
theorem covers_drop (ls : List (List Char)) {n : Nat} (h : n < ls.length) :
    covers (dotted ls) (dotted (ls.drop n)) = true := by
  induction ls generalizing n with
  | nil => cases h
  | cons l ls ih =>
    cases n with
    | zero => exact covers_refl _
    | succ n =>
      rw [List.length_cons] at h
      have hlt : n < ls.length := by omega
      have hne : ls ≠ [] := List.ne_nil_of_length_pos (by omega)
      rw [List.drop_succ_cons]
      refine covers_trans (covers_iff.mpr (.inr ?_)) (ih hlt)
      rw [dotted_cons hne]
      exact List.suffix_append _ _

/-- What is registered is the name or a parent of it. -/
theorem covers_registrable {ls : List (List Char)} (h : Labels ls) (hne : ls ≠ []) :
    covers (dotted ls) (registrable (dotted ls)) = true := by
  have hsplit : ((dotted ls).splitOn '.').filter (· ≠ []) = ls := by
    unfold dotted
    rw [List.splitOn_intercalate '.' (fun l hl => not_dot (h l hl).2) hne, List.filter_eq_self]
    exact fun l hl => decide_eq_true (h l hl).1
  have hpos := List.length_pos_iff.mpr hne
  unfold registrable
  simp only [hsplit]
  split
  · exact covers_refl _
  · split
    · exact covers_drop ls (by omega)
    · exact covers_drop ls (by omega)

/-! ## Small letters of a name -/

theorem lower_ne_nil (w : Outside) {s : List Char} (h : s ≠ []) : lower w s ≠ [] := by
  cases s with
  | nil => exact absurd rfl h
  | cons c s =>
    intro hnil
    have hone := (List.flatMap_eq_nil_iff.mp hnil) c List.mem_cons_self
    split at hone
    · cases hone
    · exact w.lower_ne_nil c hone

theorem labels_lower {w : Outside} {ls : List (List Char)} (h : Labels ls) :
    Labels (ls.map (lower w)) := by
  intro l hl
  obtain ⟨k, hk, rfl⟩ := List.mem_map.mp hl
  exact ⟨lower_ne_nil w (h k hk).1, lower_nameChar w (h k hk).2⟩

theorem lower_dotted (w : Outside) (ls : List (List Char)) :
    lower w (dotted ls) = dotted (ls.map (lower w)) := by
  induction ls with
  | nil => rfl
  | cons l ls ih =>
    by_cases hne : ls = []
    · rw [hne, List.map_cons, List.map_nil, dotted_one, dotted_one]
    · have hmap : ls.map (lower w) ≠ [] := by simpa using hne
      have hsplit : '.' :: dotted ls = ['.'] ++ dotted ls := rfl
      rw [dotted_cons hne, List.map_cons, dotted_cons hmap, lower_append, hsplit, lower_append, ih]
      rfl

/-! ## Targets in parts -/

/-- A host with the dots behind it, a port, and the path, the query or the fragment. -/
structure Place where
  labels : List (List Char)
  dots : Nat
  port : Option (List Char)
  tail : List Char
  labels_ne_nil : labels ≠ []
  labels_right : Labels labels
  port_digits : ∀ digits ∈ port, ∀ c ∈ digits, c.isDigit = true
  tail_start : ∀ c ∈ tail.head?, c ∈ "/?#".toList
  tail_end : ∀ c ∈ tail.getLast?, isSpace c = false

/-- A place behind a scheme and a user. -/
structure Url extends Place where
  scheme : List Char
  user : Option (List Char)
  scheme_start : schemeStart scheme = true
  scheme_chars : scheme.all schemeChar = true
  user_chars : ∀ us ∈ user, ∀ c ∈ us, isSpace c = false ∧ c ∉ "/?#@[]".toList

/-- The host with its dots, and the port. -/
def Place.hostText (p : Place) : List Char := dotted p.labels ++ List.replicate p.dots '.'
def Place.portText (p : Place) : List Char := match p.port with
  | none => []
  | some digits => ':' :: digits
def Place.text (p : Place) : List Char := p.hostText ++ p.portText ++ p.tail

/-- The host, in small letters. -/
def Place.host (w : Outside) (p : Place) : List Char := lower w (dotted p.labels)

def Url.userText (u : Url) : List Char := match u.user with
  | none => []
  | some us => us ++ ['@']
def Url.netloc (u : Url) : List Char := u.userText ++ (u.hostText ++ u.portText)
def Url.text (u : Url) : List Char := u.scheme ++ (schemeEnd ++ (u.netloc ++ u.tail))

/-- A character of the host with its dots. -/
def hostChar (c : Char) : Bool := nameChar c || c = '.'

theorem digit_ascii : ∀ n : Fin 128, (Char.ofNat n).isDigit = true →
    nameChar (Char.ofNat n) = true := by
  decide +kernel

theorem digit_nameChar {c : Char} (h : c.isDigit = true) : nameChar c = true := by
  have hlt : c.toNat < 128 := by
    have hle : c.toNat ≤ 57 := by
      unfold Char.isDigit at h
      simp only [ge_iff_le, Bool.and_eq_true, decide_eq_true_eq] at h
      exact h.2
    omega
  have hname := digit_ascii ⟨c.toNat, hlt⟩
  simp only [Char.ofNat_toNat] at hname
  exact hname h

theorem mem_dotted {c : Char} {ls : List (List Char)} (h : Labels ls) (hc : c ∈ dotted ls) :
    hostChar c = true := by
  unfold hostChar
  rw [Bool.or_eq_true, decide_eq_true_eq]
  rcases IpAddress.mem_intercalate hc with hdot | ⟨l, hl, hcl⟩
  · exact .inr hdot
  · exact .inl ((h l hl).2 c hcl)

theorem Place.mem_hostText {p : Place} {c : Char} (h : c ∈ p.hostText) : hostChar c = true := by
  rcases List.mem_append.mp h with h | h
  · exact mem_dotted p.labels_right h
  · rw [(List.mem_replicate.mp h).2]
    decide

theorem Place.mem_portText {p : Place} {c : Char} (h : c ∈ p.portText) :
    c = ':' ∨ nameChar c = true := by
  unfold Place.portText at h
  split at h
  · cases h
  · next digits hport =>
    rcases List.mem_cons.mp h with rfl | h
    · exact .inl rfl
    · exact .inr (digit_nameChar (p.port_digits digits hport c h))

/-! ## The ends of a name -/

theorem dotted_ne_nil {ls : List (List Char)} (h : Labels ls) (hne : ls ≠ []) : dotted ls ≠ [] := by
  obtain ⟨l, ls, rfl⟩ := List.exists_cons_of_ne_nil hne
  have hl := (h l List.mem_cons_self).1
  by_cases hls : ls = []
  · rwa [hls, dotted_one]
  · rw [dotted_cons hls]
    exact fun hnil => hl (List.append_eq_nil_iff.mp hnil).1

theorem dotted_head {ls : List (List Char)} (h : Labels ls) :
    ∀ c ∈ (dotted ls).head?, nameChar c = true := by
  intro c hc
  cases ls with
  | nil => cases hc
  | cons l ls =>
    obtain ⟨⟨hl, hname⟩, -⟩ := List.forall_mem_cons.mp h
    have hstart : ∃ t, dotted (l :: ls) = l ++ t := by
      by_cases hne : ls = []
      · exact ⟨[], by rw [hne, dotted_one, List.append_nil]⟩
      · exact ⟨_, dotted_cons hne⟩
    obtain ⟨t, ht⟩ := hstart
    rw [ht, List.head?_append_of_ne_nil l hl] at hc
    exact hname c (List.mem_of_mem_head? hc)

theorem dotted_last {ls : List (List Char)} (h : Labels ls) :
    ∀ c ∈ (dotted ls).getLast?, nameChar c = true := by
  induction ls with
  | nil =>
    intro c hc
    cases hc
  | cons l ls ih =>
    obtain ⟨⟨hl, hname⟩, hls⟩ := List.forall_mem_cons.mp h
    intro c hc
    by_cases hne : ls = []
    · rw [hne, dotted_one] at hc
      exact hname c (List.mem_of_mem_getLast? hc)
    · have hrest := dotted_ne_nil hls hne
      rw [dotted_cons hne, List.getLast?_append_of_ne_nil _ (List.cons_ne_nil _ _),
        List.getLast?_cons_of_ne_nil hrest] at hc
      exact ih hls c hc

/-! ## Up to a slash and a colon -/

/-- `split("/")[0].split(":")[0]`. -/
def cut (s : List Char) : List Char := (s.takeWhile (· ≠ '/')).takeWhile (· ≠ ':')

theorem cut_append {s : List Char} (h : ∀ c ∈ s, c ≠ '/' ∧ c ≠ ':') (t : List Char) :
    cut (s ++ t) = s ++ cut t := by
  unfold cut
  rw [List.takeWhile_append_of_pos (fun c hc => decide_eq_true (h c hc).1),
    List.takeWhile_append_of_pos (fun c hc => decide_eq_true (h c hc).2)]

theorem cut_self {s : List Char} (h : ∀ c ∈ s, c ≠ '/' ∧ c ≠ ':') : cut s = s := by
  have happ := cut_append h []
  rwa [List.append_nil, show cut [] = [] from rfl, List.append_nil] at happ

theorem cut_cons {c : Char} (h : c ≠ '/' ∧ c ≠ ':') (s : List Char) :
    cut (c :: s) = c :: cut s :=
  cut_append (s := [c]) (fun d hd => by rwa [List.mem_singleton.mp hd]) s

/-- What `forget_domain` reads of a target without a scheme, and behind one. -/
theorem forgetHost_eq (w : Outside) (target : List Char) : forgetHost w target =
    Texts.stripBy (· = '.') (cut (Texts.afterFirst schemeEnd (lower w (strip target)))) := rfl

theorem hostChar_dot {c : Char} (h : hostChar c = true) : c = '.' ∨ nameChar c = true := by
  unfold hostChar at h
  rw [Bool.or_eq_true, decide_eq_true_eq] at h
  exact h.symm

theorem hostChar_mark {c m : Char} (hc : hostChar c = true) (hm : m ∈ marks) (hdot : m ≠ '.') :
    c ≠ m := by
  rintro rfl
  rcases hostChar_dot hc with rfl | hname
  · exact hdot rfl
  · exact nameChar_mark hname hm

theorem hostChar_space {c : Char} (h : hostChar c = true) : isSpace c = false := by
  rcases hostChar_dot h with rfl | hname
  · decide
  · exact nameChar_space hname

/-! ## The host of a place -/

section
variable (w : Outside) (p : Place)

theorem host_eq : p.host w = dotted (p.labels.map (lower w)) := lower_dotted w p.labels

theorem mem_host {c : Char} (h : c ∈ p.host w) : hostChar c = true := by
  rw [host_eq] at h
  exact mem_dotted (labels_lower p.labels_right) h

theorem host_last : ∀ c ∈ (p.host w).getLast?, decide (c = '.') = false := by
  rw [host_eq]
  intro c hc
  exact nameChar_dot (dotted_last (labels_lower p.labels_right) c hc)

theorem host_head : ∀ c ∈ (p.host w).head?, decide (c = '.') = false := by
  rw [host_eq]
  intro c hc
  exact nameChar_dot (dotted_head (labels_lower p.labels_right) c hc)

theorem lower_dots (n : Nat) : lower w (List.replicate n '.') = List.replicate n '.' := by
  induction n with
  | zero => rfl
  | succ n ih =>
    have hsplit : List.replicate (n + 1) '.' = ['.'] ++ List.replicate n '.' := rfl
    rw [hsplit, lower_append, ih]
    rfl

theorem lower_hostText : lower w p.hostText = p.host w ++ List.replicate p.dots '.' := by
  unfold Place.hostText Place.host
  rw [lower_append, lower_dots]

theorem rstrip_dots : Texts.rstripBy (· = '.') (p.host w ++ List.replicate p.dots '.') = p.host w :=
  Texts.rstripBy_append (fun _ hc => decide_eq_true (List.mem_replicate.mp hc).2) (host_last w p)

theorem host_ne_nil : p.host w ≠ [] := by
  rw [host_eq]
  exact dotted_ne_nil (labels_lower p.labels_right) (by simpa using p.labels_ne_nil)

theorem strip_dots : Texts.stripBy (· = '.') (p.host w ++ List.replicate p.dots '.') = p.host w := by
  have hhead : ∀ c ∈ (p.host w ++ List.replicate p.dots '.').head?, decide (c = '.') = false := by
    rw [List.head?_append_of_ne_nil _ (host_ne_nil w p)]
    exact host_head w p
  unfold Texts.stripBy
  rw [Texts.dropWhile_self hhead, rstrip_dots]

theorem host_registrable : covers (p.host w) (registrable (p.host w)) = true := by
  rw [host_eq]
  exact covers_registrable (labels_lower p.labels_right) (by simpa using p.labels_ne_nil)

end

/-! ## The parser on a URL -/

section
variable (w : Outside) (u : Url)

theorem scheme_ascii : ∀ n : Fin 128, schemeChar (Char.ofNat n) = true →
    isSpace (Char.ofNat n) = false ∧ Char.ofNat n ≠ ':' ∧ 32 < n.val := by
  decide +kernel

theorem scheme_char {c : Char} (h : c ∈ u.scheme) :
    isSpace c = false ∧ c ≠ ':' ∧ 32 < c.toNat := by
  have hchar := List.all_eq_true.mp u.scheme_chars c h
  have hlt : c.toNat < 128 := by
    unfold schemeChar Char.isAlphanum Char.isAlpha Char.isUpper Char.isLower Char.isDigit at hchar
    simp only [Bool.or_eq_true, Bool.and_eq_true, decide_eq_true_eq, ge_iff_le] at hchar
    have hle : c.toNat ≤ 122 := by
      rcases hchar with ((((h | h) | h) | rfl) | rfl) | rfl
      · exact le_trans (show c.val.toNat ≤ 90 from h.2) (by decide)
      · exact h.2
      · exact le_trans (show c.val.toNat ≤ 57 from h.2) (by decide)
      all_goals decide
    omega
  have hascii := scheme_ascii ⟨c.toNat, hlt⟩
  simp only [Char.ofNat_toNat] at hascii
  exact hascii hchar

theorem mem_userText {c : Char} (h : c ∈ u.userText) :
    isSpace c = false ∧ c ∉ "/?#".toList := by
  unfold Url.userText at h
  split at h
  · cases h
  · next us hus =>
    rcases List.mem_append.mp h with h | h
    · obtain ⟨hspace, hmark⟩ := u.user_chars us hus c h
      exact ⟨hspace, fun hin => hmark (List.mem_append_left _ hin)⟩
    · rw [List.mem_singleton.mp h]
      decide

theorem mem_netloc {c : Char} (h : c ∈ u.netloc) : isSpace c = false ∧ c ∉ "/?#".toList := by
  have hmarks : ∀ m ∈ "/?#".toList, m ∈ marks ∧ m ≠ '.' ∧ m ≠ ':' :=
          Texts.forall_mem (by decide)
  rcases List.mem_append.mp h with h | h
  · exact mem_userText u h
  · rcases List.mem_append.mp h with h | h
    · have hchar := Place.mem_hostText h
      refine ⟨hostChar_space hchar, fun hin => ?_⟩
      exact hostChar_mark hchar (hmarks c hin).1 (hmarks c hin).2.1 rfl
    · rcases Place.mem_portText h with rfl | hname
      · decide
      · exact ⟨nameChar_space hname, fun hin => nameChar_mark hname (hmarks c hin).1⟩

/-- Tabs and line ends are the only characters that go, and none stands before the path. -/
theorem cleanUrl_text : ∃ rest, (∀ c ∈ rest.head?, c ∈ "/?#".toList) ∧
    cleanUrl u.text = u.scheme ++ (schemeEnd ++ (u.netloc ++ rest)) := by
  refine ⟨u.tail.filter fun c => c ∉ ['\t', '\r', '\n'], ?_, ?_⟩
  · intro c hc
    cases htail : u.tail with
    | nil =>
      rw [htail] at hc
      cases hc
    | cons d t =>
      have hd : d ∈ "/?#".toList := u.tail_start d (by rw [htail]; rfl)
      have hkeep : decide (d ∉ ['\t', '\r', '\n']) = true := by
        have hmarks : ∀ m ∈ "/?#".toList, decide (m ∉ ['\t', '\r', '\n']) = true :=
          Texts.forall_mem (by decide)
        exact hmarks d hd
      have hcons := List.filter_cons_of_pos (p := fun c => decide (c ∉ ['\t', '\r', '\n']))
        (l := t) hkeep
      rw [htail, hcons] at hc
      rwa [← Option.mem_some.mp hc]
  · have hblank : ∀ c : Char, isSpace c = false → decide (c ∉ ['\t', '\r', '\n']) = true := by
      intro c hc
      refine decide_eq_true fun hin => ?_
      have hspaces : ∀ m ∈ ['\t', '\r', '\n'], isSpace m = true :=
          Texts.forall_mem (by decide)
      rw [hspaces c hin] at hc
      cases hc
    have hfirst : ∀ c ∈ u.text.head?, decide (c.toNat ≤ 32) = false := by
      obtain ⟨d, t, hscheme⟩ : ∃ d t, u.scheme = d :: t := by
        cases hs : u.scheme with
        | nil =>
          have hstart := u.scheme_start
          rw [hs] at hstart
          cases hstart
        | cons d t => exact ⟨d, t, rfl⟩
      intro c hc
      unfold Url.text at hc
      rw [hscheme, List.cons_append, List.head?_cons] at hc
      have hd := scheme_char u (c := d) (by rw [hscheme]; exact List.mem_cons_self)
      rw [← Option.mem_some.mp hc]
      exact decide_eq_false (by omega)
    have hscheme : u.scheme.filter (fun c => c ∉ ['\t', '\r', '\n']) = u.scheme :=
      List.filter_eq_self.mpr fun c hc => hblank c (scheme_char u hc).1
    have hnetloc : u.netloc.filter (fun c => c ∉ ['\t', '\r', '\n']) = u.netloc :=
      List.filter_eq_self.mpr fun c hc => hblank c (mem_netloc u hc).1
    have hend : schemeEnd.filter (fun c => c ∉ ['\t', '\r', '\n']) = schemeEnd := by decide
    unfold cleanUrl
    rw [Texts.dropWhile_self hfirst]
    unfold Url.text
    rw [List.filter_append, List.filter_append, List.filter_append, hscheme, hnetloc, hend]

theorem netlocOf_text : netlocOf (cleanUrl u.text) = some u.netloc := by
  obtain ⟨rest, hrest, htext⟩ := cleanUrl_text u
  have hscheme : (cleanUrl u.text).takeWhile (· ≠ ':') = u.scheme := by
    rw [htext, List.takeWhile_append_of_pos
      (fun c hc => decide_eq_true (scheme_char u hc).2.1)]
    exact List.append_nil _
  have hcolon : ':' ∈ cleanUrl u.text := by
    rw [htext]
    exact List.mem_append_right _ List.mem_cons_self
  have hdrop : (cleanUrl u.text).drop (u.scheme.length + 1) = '/' :: '/' :: (u.netloc ++ rest) := by
    rw [htext, ← List.drop_drop, List.drop_left]
    rfl
  have hnetloc : (u.netloc ++ rest).takeWhile (· ∉ "/?#".toList) = u.netloc := by
    rw [List.takeWhile_append_of_pos (fun c hc => decide_eq_true (mem_netloc u hc).2)]
    cases rest with
    | nil => exact List.append_nil _
    | cons d t =>
      have hd : ¬ decide (d ∉ "/?#".toList) = true := fun hno => of_decide_eq_true hno (hrest d rfl)
      have hstop := List.takeWhile_cons_of_neg (p := fun c => decide (c ∉ "/?#".toList)) (l := t) hd
      rw [hstop, List.append_nil]
  unfold netlocOf
  simp only [hscheme, hcolon, u.scheme_start, u.scheme_chars, and_self, if_true, hdrop]
  rw [if_pos (show "//".toList.isPrefixOf ('/' :: '/' :: (u.netloc ++ rest)) = true from rfl),
    List.drop_succ_cons, List.drop_succ_cons, List.drop_zero, hnetloc]

/-- The host info stands behind the user. -/
theorem rtakeWhile_netloc : u.netloc.rtakeWhile (· ≠ '@') = u.hostText ++ u.portText := by
  have hat : ∀ c ∈ u.hostText ++ u.portText, decide (c ≠ '@') = true := by
    intro c hc
    rw [decide_eq_true_eq]
    rcases List.mem_append.mp hc with hc | hc
    · exact hostChar_mark (Place.mem_hostText hc) (by decide) (by decide)
    · rcases Place.mem_portText hc with rfl | hname
      · decide
      · rintro rfl
        exact nameChar_mark hname (by decide)
  unfold Url.netloc Url.userText
  split
  · rw [List.nil_append, List.rtakeWhile_eq_self_iff]
    exact hat
  · next us _ =>
    have hrev : ∀ c ∈ (u.hostText ++ u.portText).reverse, decide (c ≠ '@') = true :=
      fun c hc => hat c (List.mem_reverse.mp hc)
    unfold List.rtakeWhile
    rw [List.reverse_append, List.takeWhile_append_of_pos hrev, List.reverse_concat,
      List.takeWhile_cons_of_neg (by decide), List.append_nil, List.reverse_reverse]

theorem hostname_netloc : hostname w u.netloc = u.host w ++ List.replicate u.dots '.' := by
  have hhost : ∀ c ∈ u.hostText, hostChar c = true := fun c hc => Place.mem_hostText hc
  have hbracket : '[' ∉ u.hostText ++ u.portText := by
    intro hin
    rcases List.mem_append.mp hin with hin | hin
    · exact hostChar_mark (hhost _ hin) (by decide) (by decide) rfl
    · rcases Place.mem_portText hin with hcolon | hname
      · cases hcolon
      · exact nameChar_mark hname (by decide)
  have hport : (u.hostText ++ u.portText).takeWhile (· ≠ ':') = u.hostText := by
    rw [List.takeWhile_append_of_pos
      (fun c hc => decide_eq_true (hostChar_mark (hhost c hc) (by decide) (by decide)))]
    unfold Place.portText
    split
    · exact List.append_nil _
    · exact List.append_nil _
  have hzone : ∀ c ∈ u.hostText, decide (c ≠ '%') = true := fun c hc =>
    decide_eq_true (hostChar_mark (hhost c hc) (by decide) (by decide))
  unfold hostname
  simp only [rtakeWhile_netloc, if_neg hbracket, hport]
  rw [List.takeWhile_eq_self_iff.mpr hzone, List.dropWhile_eq_nil_iff.mpr hzone, List.append_nil,
    lower_hostText]

end

/-! ## The two hosts of a target -/

/-- Behind the host stands a colon, a slash or nothing. -/
def Place.Ended (p : Place) : Prop := p.port ≠ none ∨ p.tail = [] ∨ p.tail.head? = some '/'

/-- The user's name, as a host is written. -/
def userName (w : Outside) (us : List Char) : List Char :=
  Texts.stripBy (· = '.') (lower w (us.takeWhile (· ≠ ':')))

section
variable (w : Outside)

theorem host_marks (p : Place) : ∀ c ∈ p.host w ++ List.replicate p.dots '.', c ≠ '/' ∧ c ≠ ':' := by
  intro c hc
  have hchar : hostChar c = true := by
    rcases List.mem_append.mp hc with hc | hc
    · exact mem_host w p hc
    · rw [(List.mem_replicate.mp hc).2]
      decide
  exact ⟨hostChar_mark hchar (by decide) (by decide), hostChar_mark hchar (by decide) (by decide)⟩

theorem hostText_marks (p : Place) : ∀ c ∈ p.hostText, c ≠ '/' ∧ c ≠ ':' := fun _ hc =>
  ⟨hostChar_mark (Place.mem_hostText hc) (by decide) (by decide),
    hostChar_mark (Place.mem_hostText hc) (by decide) (by decide)⟩

theorem text_last {s : List Char} {p : Place} (h : ∀ c ∈ s, isSpace c = false) :
    ∀ c ∈ (s ++ p.tail).getLast?, isSpace c = false := by
  intro c hc
  by_cases htail : p.tail = []
  · rw [htail, List.append_nil] at hc
    exact h c (List.mem_of_mem_getLast? hc)
  · rw [List.getLast?_append_of_ne_nil s htail] at hc
    exact p.tail_end c hc

theorem strip_text (u : Url) : strip u.text = u.text := by
  have hscheme : ∀ c ∈ u.scheme ++ (schemeEnd ++ u.netloc), isSpace c = false := by
    intro c hc
    rcases List.mem_append.mp hc with hc | hc
    · exact (scheme_char u hc).1
    · rcases List.mem_append.mp hc with hc | hc
      · have hend : ∀ c ∈ schemeEnd, isSpace c = false := Texts.forall_mem (by decide)
        exact hend c hc
      · exact (mem_netloc u hc).1
  have htext : u.text = (u.scheme ++ (schemeEnd ++ u.netloc)) ++ u.tail := by
    unfold Url.text
    rw [List.append_assoc, List.append_assoc]
  refine Texts.stripBy_self ?_ (by rw [htext]; exact text_last hscheme)
  have hne : u.scheme ++ (schemeEnd ++ u.netloc) ≠ [] :=
    List.append_ne_nil_of_right_ne_nil _ (List.cons_ne_nil _ _)
  rw [htext, List.head?_append_of_ne_nil _ hne]
  exact fun c hc => hscheme c (List.mem_of_mem_head? hc)

theorem scheme_colon (u : Url) : ':' ∉ u.scheme := fun hin => (scheme_char u hin).2.1 rfl

/-- Of a URL the parser reads the host, unless it refuses the URL. -/
theorem hostOf_url (u : Url) :
    hostOf w u.text = if w.refuses u.netloc = true then none else some (u.host w) := by
  have hscheme : Texts.fromEach schemeEnd u.text ≠ [] := by
    intro hnil
    have hhead := @Texts.fromEach_head ':' "//".toList (schemeEnd ++ (u.netloc ++ u.tail)) u.scheme
      (scheme_colon u) ( List.isPrefixOf_iff_prefix.mpr (List.prefix_append _ _))
    have htext : Texts.fromEach schemeEnd u.text = Texts.fromEach (':' :: "//".toList)
        (u.scheme ++ (schemeEnd ++ (u.netloc ++ u.tail))) := rfl
    rw [← htext, hnil] at hhead
    cases hhead
  have hspace : ∀ c ∈ u.host w ++ List.replicate u.dots '.', isSpace c = false := by
    intro c hc
    rcases List.mem_append.mp hc with hc | hc
    · exact hostChar_space (mem_host w u.toPlace hc)
    · rw [(List.mem_replicate.mp hc).2]
      decide
  have hstrip : strip (u.host w ++ List.replicate u.dots '.') =
      u.host w ++ List.replicate u.dots '.' :=
    Texts.stripBy_self (fun c hc => hspace c (List.mem_of_mem_head? hc))
      (fun c hc => hspace c (List.mem_of_mem_getLast? hc))
  have hread : lower w (Texts.rstripBy (· = '.') (strip
      (cut (u.host w ++ List.replicate u.dots '.')))) = u.host w := by
    rw [cut_self (host_marks w u.toPlace), hstrip, rstrip_dots]
    exact lower_lower w _
  have hne : hostname w u.netloc ≠ [] := by
    rw [hostname_netloc]
    exact List.append_ne_nil_of_left_ne_nil (host_ne_nil w u.toPlace) _
  unfold hostOf urlHost
  simp only [strip_text, if_pos hscheme, netlocOf_text, if_neg hne]
  split
  · rfl
  · rw [hostname_netloc, Option.map_some]
    exact congrArg some hread

theorem forgetHost_url (u : Url) :
    forgetHost w u.text = Texts.stripBy (· = '.') (cut (lower w (u.netloc ++ u.tail))) := by
  have hcolon : ':' ∉ lower w u.scheme := fun hin =>
    scheme_colon u ((mark_mem_lower w (by decide) u.scheme).mp hin)
  have htext : lower w u.text =
      lower w u.scheme ++ ((':' :: "//".toList) ++ lower w (u.netloc ++ u.tail)) := by
    unfold Url.text
    rw [lower_append, lower_append]
    rfl
  rw [forgetHost_eq, strip_text, htext]
  exact congrArg (fun s => Texts.stripBy (· = '.') (cut s)) (Texts.afterFirst_append hcolon _)

/-- What stands behind the host is cut off. -/
theorem cut_ended (p : Place) (h : p.Ended) :
    cut (p.portText ++ p.tail) = [] ∧ cut (lower w (p.portText ++ p.tail)) = [] := by
  unfold Place.Ended at h
  unfold Place.portText
  cases hport : p.port with
  | some digits => exact ⟨rfl, rfl⟩
  | none =>
    cases htail : p.tail with
    | nil => exact ⟨rfl, rfl⟩
    | cons c t =>
      rw [hport, htail] at h
      rcases h with h | h | h
      · exact absurd rfl h
      · cases h
      · rw [Option.some.inj h]
        exact ⟨rfl, rfl⟩

/-- What is not cut off is a query or a fragment. -/
theorem cut_open (p : Place) (h : ¬ p.Ended) :
    ∃ m ∈ ['?', '#'], m ∈ cut (lower w (p.portText ++ p.tail)) := by
  unfold Place.Ended at h
  obtain ⟨hport, h⟩ := not_or.mp h
  obtain ⟨htail, hslash⟩ := not_or.mp h
  obtain ⟨c, t, hc⟩ := List.exists_cons_of_ne_nil htail
  have hstart : c ∈ ['/', '?', '#'] := p.tail_start c (by rw [hc]; rfl)
  simp only [List.mem_cons, List.not_mem_nil, or_false] at hstart
  unfold Place.portText
  rw [not_not.mp hport, hc]
  rcases hstart with rfl | rfl | rfl
  · exact absurd (by rw [hc]; rfl) hslash
  · exact ⟨'?', by decide, List.mem_cons_self⟩
  · exact ⟨'#', by decide, List.mem_cons_self⟩

end

/-! ## When a manual check forgets -/

section
variable (w : Outside)

theorem agrees_url (u : Url) : Agrees w u.text ↔ w.refuses u.netloc = true ∨
    (covers (u.host w) (forgetHost w u.text) = true ∧
      covers (forgetHost w u.text) (registrable (u.host w)) = true) := by
  unfold Agrees
  rw [hostOf_url]
  by_cases hrefuses : w.refuses u.netloc = true
  · rw [if_pos hrefuses]
    exact ⟨fun _ => .inl hrefuses, fun _ => nofun⟩
  · rw [if_neg hrefuses]
    constructor
    · exact fun h => .inr (h _ rfl)
    · rintro (h | h) host hhost
      · exact absurd h hrefuses
      · rw [← Option.some.inj hhost]
        exact h

theorem not_covers {host key : List Char} {m : Char} (hm : m ∈ key) (hno : m ∉ host) :
    ¬ covers host key = true := fun h => hno (covers_subset h hm)

theorem host_no_mark (p : Place) {m : Char} (hm : m ∈ marks) (hdot : m ≠ '.') : m ∉ p.host w :=
  fun hin => hostChar_mark (mem_host w p hin) hm hdot rfl

/-- Without a user the host is forgotten when it ends where it is cut. -/
theorem agrees_plain (u : Url) (h : u.user = none) :
    (covers (u.host w) (forgetHost w u.text) = true ∧
      covers (forgetHost w u.text) (registrable (u.host w)) = true) ↔ u.Ended := by
  have hcut : cut (lower w (u.netloc ++ u.tail)) = (u.host w ++ List.replicate u.dots '.') ++
      cut (lower w (u.portText ++ u.tail)) := by
    have htext : u.netloc ++ u.tail = u.hostText ++ (u.portText ++ u.tail) := by
      unfold Url.netloc Url.userText
      rw [h, List.nil_append, List.append_assoc]
    rw [htext, lower_append, lower_hostText, cut_append (host_marks w u.toPlace)]
  rw [forgetHost_url, hcut]
  by_cases hend : u.Ended
  · rw [(cut_ended w u.toPlace hend).2, List.append_nil, strip_dots]
    exact ⟨fun _ => hend, fun _ => ⟨covers_refl _, host_registrable w u.toPlace⟩⟩
  · refine ⟨fun hcover => ?_, fun hno => absurd hno hend⟩
    obtain ⟨m, hm, hin⟩ := cut_open w u.toPlace hend
    have hmark : ∀ m ∈ ['?', '#'], m ∈ marks ∧ m ≠ '.' := Texts.forall_mem (by decide)
    have hkey := Texts.mem_stripBy (p := fun c => decide (c = '.')) (List.mem_append_right
      (u.host w ++ List.replicate u.dots '.') hin) (decide_eq_false (hmark m hm).2)
    exact absurd hcover.1 (not_covers hkey (host_no_mark w u.toPlace (hmark m hm).1 (hmark m hm).2))

/-- Behind a user the host is not read: what is cut is the user's name, up to a password. -/
theorem agrees_user (u : Url) {us : List Char} (h : u.user = some us) :
    (covers (u.host w) (forgetHost w u.text) = true ∧
      covers (forgetHost w u.text) (registrable (u.host w)) = true) ↔
    ':' ∈ us ∧ covers (u.host w) (userName w us) = true ∧
      covers (userName w us) (registrable (u.host w)) = true := by
  have htext : u.netloc ++ u.tail = us ++ '@' :: (u.hostText ++ u.portText ++ u.tail) := by
    unfold Url.netloc Url.userText
    rw [h]
    simp
  have hslash : ∀ c ∈ us, c ≠ '/' := by
    rintro c hc rfl
    exact (u.user_chars us h '/' hc).2 (by decide)
  have hlower : ∀ s : List Char, (∀ c ∈ s, c ≠ '/' ∧ c ≠ ':') →
      ∀ d ∈ lower w s, d ≠ '/' ∧ d ≠ ':' := by
    intro s hs d hd
    constructor
    · rintro rfl
      exact (hs '/' ((mark_mem_lower w (by decide) s).mp hd)).1 rfl
    · rintro rfl
      exact (hs ':' ((mark_mem_lower w (by decide) s).mp hd)).2 rfl
  rw [forgetHost_url, htext]
  by_cases hcolon : ':' ∈ us
  · have hname : ∀ c ∈ us.takeWhile (· ≠ ':'), c ≠ '/' ∧ c ≠ ':' := by
      intro c hc
      have hne := List.mem_takeWhile_imp (p := fun c => decide (c ≠ ':')) hc
      exact ⟨hslash c (List.takeWhile_subset _ hc), of_decide_eq_true hne⟩
    obtain ⟨rest, hrest⟩ := Texts.takeWhile_first hcolon
    have hcut : cut (lower w (us ++ '@' :: (u.hostText ++ u.portText ++ u.tail))) =
        lower w (us.takeWhile (· ≠ ':')) := by
      rw [hrest, List.append_assoc, lower_append, ← hrest, cut_append (hlower _ hname)]
      exact List.append_nil _
    rw [hcut]
    exact ⟨fun hcover => ⟨hcolon, hcover⟩, And.right⟩
  · refine ⟨fun hcover => ?_, fun hno => absurd hno.1 hcolon⟩
    have hus : ∀ c ∈ us, c ≠ '/' ∧ c ≠ ':' := fun c hc =>
      ⟨hslash c hc, fun heq => hcolon (heq ▸ hc)⟩
    have hat : '@' ∈ cut (lower w (us ++ '@' :: (u.hostText ++ u.portText ++ u.tail))) := by
      have hsplit : lower w (us ++ '@' :: (u.hostText ++ u.portText ++ u.tail)) =
          lower w us ++ '@' :: lower w (u.hostText ++ u.portText ++ u.tail) := lower_append w us _
      rw [hsplit, cut_append (hlower us hus), cut_cons (by decide)]
      exact List.mem_append_right _ List.mem_cons_self
    have hkey := Texts.mem_stripBy (p := fun c => decide (c = '.')) hat (by decide)
    exact absurd hcover.1 (not_covers hkey (host_no_mark w u.toPlace (by decide) (by decide)))

end

/-! ## A target without a scheme -/

/-- Marks at the start of a text in small letters stand there in the text. -/
theorem marks_start (w : Outside) {ms s : List Char} (hms : ∀ m ∈ ms, m ∈ marks)
    (h : ms <+: lower w s) : ms <+: s := by
  induction ms generalizing s with
  | nil => exact List.nil_prefix
  | cons m ms ih =>
    obtain ⟨hm, hms⟩ := List.forall_mem_cons.mp hms
    cases s with
    | nil => exact h
    | cons c s =>
      have hsplit : lower w (c :: s) = lower w [c] ++ lower w s := lower_append w [c] s
      obtain ⟨d, ds, hone⟩ := List.exists_cons_of_ne_nil (lower_ne_nil w (List.cons_ne_nil c []))
      rw [hsplit, hone, List.cons_append, List.cons_prefix_cons] at h
      have hc : m = c := by
        have hin : m ∈ lower w [c] := by
          rw [hone, h.1]
          exact List.mem_cons_self
        exact List.mem_singleton.mp ((mark_mem_lower w hm [c]).mp hin)
      have hlt : c.toNat < 128 := by
        have hascii : ∀ m ∈ marks, m.toNat < 128 := Texts.forall_mem (by decide)
        exact hc ▸ hascii m hm
      have hds : ds = [] := by
        rw [lower_ascii w hlt] at hone
        exact (List.cons.inj hone).2.symm
      rw [hds, List.nil_append] at h
      rw [hc, List.cons_prefix_cons]
      exact ⟨rfl, ih hms h.2⟩

/-- Marks in a text in small letters stand in the text. -/
theorem marks_in (w : Outside) {m : Char} {ms s : List Char} (hm : m ∈ marks)
    (hms : ∀ m ∈ ms, m ∈ marks) (h : (m :: ms) <:+: lower w s) : (m :: ms) <:+: s := by
  induction s with
  | nil => exact h
  | cons c s ih =>
    by_cases hc : m = c
    · have hlt : c.toNat < 128 := by
        have hascii : ∀ m ∈ marks, m.toNat < 128 := Texts.forall_mem (by decide)
        exact hc ▸ hascii m hm
      have hsplit : lower w (c :: s) = c.toLower :: lower w s := by
        rw [show c :: s = [c] ++ s from rfl, lower_append, lower_ascii w hlt]
        rfl
      have hall : ∀ k ∈ m :: ms, k ∈ marks := List.forall_mem_cons.mpr ⟨hm, hms⟩
      rcases List.infix_cons_iff.mp (hsplit ▸ h) with hstart | hin
      · exact (marks_start w hall (hsplit ▸ hstart)).isInfix
      · exact (ih hin).trans (List.suffix_cons c s).isInfix
    · have hsplit : lower w (c :: s) = lower w [c] ++ lower w s := lower_append w [c] s
      have hno : m ∉ lower w [c] := fun hin =>
        hc (List.mem_singleton.mp ((mark_mem_lower w hm [c]).mp hin))
      have hskip : ∀ t : List Char, m ∉ t → (m :: ms) <:+: t ++ lower w s →
          (m :: ms) <:+: lower w s := by
        intro t ht hin
        induction t with
        | nil => exact hin
        | cons d t iht =>
          obtain ⟨hd, ht⟩ := not_or.mp (mt List.mem_cons.mpr ht)
          rcases List.infix_cons_iff.mp hin with hstart | hin
          · exact absurd (List.cons_prefix_cons.mp hstart).1 hd
          · exact iht ht hin
      exact (ih (hskip _ hno (hsplit ▸ h))).trans (List.suffix_cons c s).isInfix

theorem schemeEnd_in (w : Outside) {s : List Char} (h : schemeEnd <:+: lower w s) :
    schemeEnd <:+: s :=
  @marks_in w ':' "//".toList s (by decide) (Texts.forall_mem (by decide)) h

theorem fromEach_nil {sep s : List Char} (h : ¬ sep <:+: s) : Texts.fromEach sep s = [] := by
  unfold Texts.fromEach
  refine List.filter_eq_nil_iff.mpr fun t ht hstart => h ?_
  exact ( List.isPrefixOf_iff_prefix.mp hstart).isInfix.trans ((List.mem_tails _ _).mp ht).isInfix

/-- A bare host with a port or a path: both functions read the same. -/
theorem agrees_bare (w : Outside) (p : Place) (hbare : ¬ schemeEnd <:+: p.text) (hend : p.Ended) :
    Agrees w p.text := by
  have hspace : ∀ c ∈ p.hostText ++ p.portText, isSpace c = false := by
    intro c hc
    rcases List.mem_append.mp hc with hc | hc
    · exact hostChar_space (Place.mem_hostText hc)
    · rcases Place.mem_portText hc with rfl | hname
      · decide
      · exact nameChar_space hname
  have hne : p.hostText ≠ [] :=
    List.append_ne_nil_of_left_ne_nil (dotted_ne_nil p.labels_right p.labels_ne_nil) _
  have hstrip : strip p.text = p.text := by
    refine Texts.stripBy_self ?_ (text_last hspace)
    unfold Place.text
    rw [List.append_assoc, List.head?_append_of_ne_nil _ hne]
    exact fun c hc => hspace c (List.mem_append_left _ (List.mem_of_mem_head? hc))
  have hlow : cut (lower w p.text) = p.host w ++ List.replicate p.dots '.' := by
    unfold Place.text
    rw [List.append_assoc, lower_append, lower_hostText, cut_append (host_marks w p),
      (cut_ended w p hend).2, List.append_nil]
  have hcut : cut p.text = p.hostText := by
    unfold Place.text
    rw [List.append_assoc, cut_append (hostText_marks p)]
    rw [(cut_ended w p hend).1, List.append_nil]
  have hforget : forgetHost w p.text = p.host w := by
    rw [forgetHost_eq, hstrip, Texts.afterFirst, fromEach_nil (mt (schemeEnd_in w) hbare)]
    show Texts.stripBy _ (cut (lower w p.text)) = _
    rw [hlow, strip_dots]
  have hhost : hostOf w p.text = some (p.host w) := by
    have hstay : strip p.hostText = p.hostText :=
      Texts.stripBy_self (fun c hc => hostChar_space (Place.mem_hostText (List.mem_of_mem_head? hc)))
        (fun c hc => hostChar_space (Place.mem_hostText (List.mem_of_mem_getLast? hc)))
    have hdots : Texts.rstripBy (· = '.') p.hostText = dotted p.labels := by
      refine Texts.rstripBy_append (fun c hc => decide_eq_true (List.mem_replicate.mp hc).2) ?_
      intro c hc
      exact nameChar_dot (dotted_last p.labels_right c hc)
    unfold hostOf
    simp only [hstrip, fromEach_nil hbare]
    show some (lower w (Texts.rstripBy (· = '.') (strip (cut p.text)))) = _
    rw [hcut, hstay, hdots]
    rfl
  intro host h
  rw [hhost] at h
  rw [← Option.some.inj h, hforget]
  exact ⟨covers_refl _, host_registrable w p⟩

/-! ## The check and its next probe -/

/-- A manual check forgets the domain that the next probe looks up, and no other one, exactly when
the text of the target up to a slash or a colon is the host or a parent of it that the registrable
domain ends. Of a URL it is so without a user exactly when a port, a path or nothing stands behind
the host, and with a user when his name, before a password, is such a parent. Of a bare host it
is so with a port and a path. And where it is so, the next probe asks the registry. -/
structure ForgetRight (w : Outside) : Prop where
  every : ∀ target, Forgotten w target ↔ Agrees w target
  url : ∀ u : Url, Forgotten w u.text ↔ w.refuses u.netloc = true ∨
    match u.user with
    | none => u.Ended
    | some us => ':' ∈ us ∧ covers (u.host w) (userName w us) = true ∧
        covers (userName w us) (registrable (u.host w)) = true
  bare : ∀ p : Place, ¬ schemeEnd <:+: p.text → p.Ended → Forgotten w p.text
  asks : ∀ target key, Forgotten w target → registrableDomain w target = some key →
    ∀ ask cache now, (domainDaysCached ask (forgetDomain w target cache) now key).1 = ask key

theorem forget_right (w : Outside) : ForgetRight w where
  every := forgotten_iff w
  url u := by
    rw [forgotten_iff, agrees_url]
    refine or_congr Iff.rfl ?_
    cases huser : u.user with
    | none => exact agrees_plain w u huser
    | some us => exact agrees_user w u huser
  bare p hbare hend := (forgotten_iff w p.text).mpr (agrees_bare w p hbare hend)
  asks _ _ h hkey ask cache now := asks_again h hkey ask cache now

/-- Small letters and addresses of ASCII texts. -/
def ascii : Outside where
  lower c := [c]
  refuses _ := false
  lower_ne_nil _ := List.cons_ne_nil _ _
  lower_mark c hc d hd hm := by
    have hascii : ∀ m ∈ marks, m.toNat < 128 := Texts.forall_mem (by decide)
    have hlt := hascii d hm
    rw [List.mem_singleton.mp hd] at hlt
    omega
  lower_blank c _ hspace d hd := by rwa [List.mem_singleton.mp hd]
  lower_lower c hc d hd := by
    rw [List.mem_singleton.mp hd, if_neg (by omega)]

/-- A target with a user in front of the host, and what the cache holds. -/
def userTarget : List Char := "https://mail.ru:pw@example.com/".toList
def userCache : Cache := [("example.com".toList, ⟨some (-1), "", 0⟩),
  ("mail.ru".toList, ⟨some 90, "", 0⟩)]

/-- The probe is answered from the cache again, and another domain, which has the user's name, is
forgotten in its place. -/
theorem user_keeps_the_cache :
    registrableDomain ascii userTarget = some "example.com".toList ∧
      Dict.keys (forgetDomain ascii userTarget userCache) = ["example.com".toList] ∧
      ¬ Forgotten ascii userTarget := by
  have hkey : registrableDomain ascii userTarget = some "example.com".toList := by decide +kernel
  have hkeys : Dict.keys (forgetDomain ascii userTarget userCache) = ["example.com".toList] := by
    decide +kernel
  refine ⟨hkey, hkeys, fun h => h.asked userCache _ hkey ?_⟩
  rw [hkeys]
  exact List.mem_cons_self

end Kervax.DomainCache
