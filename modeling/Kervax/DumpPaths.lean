-- The directory of the dumps: which directory a path denotes, and where the check of the path
-- (`dumpDirOK`) refuses the directories of the system.
import Kervax.SpoolRequests
import Kervax.Texts

namespace Kervax.Spools

/-! ## Paths -/

/-- What stands between the slashes of a path from the root, without the slashes at its end. -/
def segments (d : Text) : List Text := ((d.drop 1).splitOn '/').rdropWhile (· = [])

/-- A segment denotes a directory: it is not empty and not `.`. -/
def isName (seg : Text) : Bool := seg ≠ [] && seg ≠ ['.']

/-- The directory that a path denotes, by the names on the way to it. -/
def names (d : Text) : List Text := (segments d).filter isName

/-- The directories of `dumpSysDir`, but for those that begin with `lib`. -/
def sysPaths : List String :=
  ["/bin/", "/boot/", "/dev/", "/etc/", "/proc/", "/root/", "/run/", "/sbin/", "/snap/", "/sys/",
    "/tmp/", "/usr/", "/var/tmp/", "/var/lib/", "/var/log/", "/var/cache/", "/var/spool/",
    "/var/run/", "/var/lock/", "/var/mail/"]

/-- `/`, `/var` and `/home`, and what is in a directory of the list. -/
def SysNames (ns : List Text) : Prop :=
  ns = [] ∨ ns = ["var".toList] ∨ ns = ["home".toList] ∨
    (∃ d ∈ sysPaths, segments d.toList <+: ns) ∨ ∃ n ∈ ns.head?, "lib".toList <+: n

/-- The path that names and slashes make. -/
def slashed (ns : List Text) : Text := ns.flatMap (· ++ ['/'])

/-- The first names end at the first slashes. -/
theorem prefix_cut {n m x y : Text} (hn : '/' ∉ n) (hm : '/' ∉ m) :
    n ++ '/' :: x <+: m ++ '/' :: y ↔ n = m ∧ x <+: y := by
  induction n generalizing m with
  | nil =>
    cases m with
    | nil => simp
    | cons c m =>
      have hc : '/' ≠ c := fun h => hm (h ▸ List.mem_cons_self)
      simp [List.cons_prefix_cons, hc]
  | cons b n ih =>
    have hb : b ≠ '/' := fun h => hn (h ▸ List.mem_cons_self)
    cases m with
    | nil => simp [List.cons_prefix_cons, hb]
    | cons c m =>
      have hn' : '/' ∉ n := fun h => hn (List.mem_cons_of_mem b h)
      have hm' : '/' ∉ m := fun h => hm (List.mem_cons_of_mem c h)
      rw [List.cons_append, List.cons_append, List.cons_prefix_cons, ih hn' hm', List.cons.injEq]
      exact and_assoc.symm

theorem prefix_slashed {ds ns : List Text} (hd : ∀ n ∈ ds, '/' ∉ n) (hn : ∀ n ∈ ns, '/' ∉ n) :
    slashed ds <+: slashed ns ↔ ds <+: ns := by
  induction ds generalizing ns with
  | nil => simp [slashed]
  | cons d ds ih =>
    obtain ⟨hd0, hds⟩ := List.forall_mem_cons.mp hd
    cases ns with
    | nil => simp [slashed]
    | cons n ns =>
      obtain ⟨hn0, hns⟩ := List.forall_mem_cons.mp hn
      have hcons : ∀ (m : Text) ms, slashed (m :: ms) = m ++ '/' :: slashed ms := by
        intro m ms
        simp [slashed]
      rw [hcons, hcons, prefix_cut hd0 hn0, ih hds hns, List.cons_prefix_cons]

/-- Every segment of a path comes after a slash. -/
theorem slash_intercalate {ls : List Text} (h : ls ≠ []) :
    '/' :: ['/'].intercalate ls = ls.flatMap ('/' :: ·) := by
  induction ls with
  | nil => exact absurd rfl h
  | cons l ls ih =>
    cases ls with
    | nil => simp
    | cons m ms =>
      rw [List.intercalate_cons_cons, List.flatMap_cons, ← ih (List.cons_ne_nil m ms)]
      simp

/-- The slashes at the end of a path are those of its empty last segments. -/
theorem trim_slashes {ls : List Text} (h : ∀ n ∈ ls, '/' ∉ n) :
    (ls.flatMap ('/' :: ·)).rdropWhile (· = '/') =
      (ls.rdropWhile (· = [])).flatMap ('/' :: ·) := by
  induction ls using List.reverseRecOn with
  | nil => rfl
  | append_singleton ls n ih =>
    rw [List.flatMap_append, List.flatMap_singleton]
    rcases List.eq_nil_or_concat n with rfl | ⟨n', c, rfl⟩
    · rw [List.rdropWhile_concat_pos _ _ _ (by simp), List.rdropWhile_concat_pos _ _ _ (by simp)]
      exact ih fun n hn => h n (List.mem_append_left _ hn)
    · have hc : c ≠ '/' := by
        have hn := h _ (List.mem_append_right ls List.mem_cons_self)
        intro heq
        exact hn (heq ▸ by simp)
      have hslash : ¬ decide (c = '/') = true := by simpa using hc
      have hempty : ¬ decide (n'.concat c = []) = true := by simp
      rw [List.rdropWhile_concat_neg (fun n : Text => decide (n = [])) ls _ hempty,
        List.flatMap_append, List.flatMap_singleton, List.concat_eq_append, ← List.cons_append,
        ← List.append_assoc, List.rdropWhile_concat_neg (fun d => decide (d = '/')) _ _ hslash]

theorem flatMap_slash (ls : List Text) : ls.flatMap ('/' :: ·) ++ ['/'] = '/' :: slashed ls := by
  induction ls with
  | nil => rfl
  | cons l ls ih =>
    rw [List.flatMap_cons, List.append_assoc, ih]
    simp [slashed]

/-- What `dumpSysDir` compares: the segments, with a slash after each. -/
theorem trim_path (t : Text) :
    ('/' :: t).rdropWhile (· = '/') ++ ['/'] = '/' :: slashed (segments ('/' :: t)) := by
  have hall : '/' :: t = (t.splitOn '/').flatMap ('/' :: ·) := by
    rw [← slash_intercalate (List.splitOn_ne_nil _ _), List.intercalate_splitOn]
  rw [hall, trim_slashes fun n hn => Texts.not_mem_splitOn hn, flatMap_slash, ← hall]
  rfl

theorem segments_no_slash (d : Text) : ∀ n ∈ segments d, '/' ∉ n := fun _ hn =>
  Texts.not_mem_splitOn (( List.rdropWhile_prefix _ _).subset hn)

/-! ## The directories of the system -/

theorem sysPaths_slashed : ∀ d ∈ sysPaths, d.toList = '/' :: slashed (segments d.toList) := by
  decide

theorem slashed_injective {ds ns : List Text} (hd : ∀ n ∈ ds, '/' ∉ n) (hn : ∀ n ∈ ns, '/' ∉ n) :
    slashed ds = slashed ns ↔ ds = ns := by
  refine ⟨fun h => ?_, congrArg slashed⟩
  have hle := (prefix_slashed hd hn).mp (h ▸ List.prefix_rfl)
  have hge := (prefix_slashed hn hd).mp (h ▸ List.prefix_rfl)
  exact hle.eq_of_length_le hge.length_le

/-- A word without slashes stands in the first name. -/
theorem prefix_word {w n y : Text} (hw : '/' ∉ w) : w <+: n ++ '/' :: y ↔ w <+: n := by
  induction w generalizing n with
  | nil => simp
  | cons c w ih =>
    have hc : c ≠ '/' := fun h => hw (h ▸ List.mem_cons_self)
    cases n with
    | nil => simp [List.cons_prefix_cons, hc]
    | cons b n =>
      rw [List.cons_append, List.cons_prefix_cons, List.cons_prefix_cons,
        ih fun h => hw (List.mem_cons_of_mem c h)]

theorem prefix_lib (ns : List Text) :
    "lib".toList <+: slashed ns ↔ ∃ n ∈ ns.head?, "lib".toList <+: n := by
  cases ns with
  | nil => simp [slashed]
  | cons n ns =>
    have hcons : slashed (n :: ns) = n ++ '/' :: slashed ns := by simp [slashed]
    rw [hcons, prefix_word (by decide)]
    simp

/-- The check, by the segments as they are written. -/
theorem dumpSysDir_iff (t : Text) :
    dumpSysDir ('/' :: t) = true ↔ SysNames (segments ('/' :: t)) := by
  have hno := segments_no_slash ('/' :: t)
  have hone : ∀ w : Text, '/' ∉ w → ∀ n ∈ [w], '/' ∉ n := by
    intro w hw n hn
    rwa [List.mem_singleton.mp hn]
  have heq : ∀ w : Text, '/' ∉ w → (slashed (segments ('/' :: t)) = w ++ ['/'] ↔
      segments ('/' :: t) = [w]) := by
    intro w hw
    rw [← slashed_injective hno (hone w hw)]
    simp [slashed]
  have hnil : slashed (segments ('/' :: t)) = [] ↔ segments ('/' :: t) = [] :=
    slashed_injective hno (fun _ h => absurd h List.not_mem_nil)
  have hlist : ["/bin/", "/boot/", "/dev/", "/etc/", "/lib", "/proc/", "/root/", "/run/", "/sbin/",
      "/snap/", "/sys/", "/tmp/", "/usr/", "/var/tmp/", "/var/lib/", "/var/log/", "/var/cache/",
      "/var/spool/", "/var/run/", "/var/lock/", "/var/mail/"].Perm ("/lib" :: sysPaths) := by
    decide
  have hsys : ∀ d ∈ sysPaths, (hasPrefix ('/' :: slashed (segments ('/' :: t))) d = true ↔
      segments d.toList <+: segments ('/' :: t)) := by
    intro d hd
    unfold hasPrefix
    rw [ List.isPrefixOf_iff_prefix]
    conv_lhs => rw [sysPaths_slashed d hd]
    rw [List.cons_prefix_cons, prefix_slashed (segments_no_slash _) hno]
    simp
  have hlib : hasPrefix ('/' :: slashed (segments ('/' :: t))) "/lib" = true ↔
      ∃ n ∈ (segments ('/' :: t)).head?, "lib".toList <+: n := by
    unfold hasPrefix
    rw [ List.isPrefixOf_iff_prefix, show "/lib".toList = '/' :: "lib".toList from rfl,
      List.cons_prefix_cons, prefix_lib]
    simp
  unfold dumpSysDir SysNames
  simp only [trim_path]
  rw [Bool.or_eq_true, List.any_eq_true, hlist.any_eq, List.any_cons, Bool.or_eq_true, hlib,
    List.any_eq_true]
  simp only [List.mem_cons, List.not_mem_nil, or_false, exists_eq_or_imp, exists_eq_left,
    decide_eq_true_eq]
  have hroot : '/' :: slashed (segments ('/' :: t)) = "/".toList ↔ segments ('/' :: t) = [] := by
    rw [← hnil]
    simp
  have hvar : '/' :: slashed (segments ('/' :: t)) = "/var/".toList ↔
      segments ('/' :: t) = ["var".toList] := by
    rw [← heq _ (by decide)]
    simp
  have hhome : '/' :: slashed (segments ('/' :: t)) = "/home/".toList ↔
      segments ('/' :: t) = ["home".toList] := by
    rw [← heq _ (by decide)]
    simp
  have hany : (∃ d, d ∈ sysPaths ∧ hasPrefix ('/' :: slashed (segments ('/' :: t))) d = true) ↔
      ∃ d ∈ sysPaths, segments d.toList <+: segments ('/' :: t) :=
    exists_congr fun d => and_congr_right (hsys d)
  rw [hroot, hvar, hhome, hany, or_comm (a := ∃ n ∈ (segments ('/' :: t)).head?, _), or_assoc,
    or_assoc]

/-- Empty and `.` segments behind the names of a directory of the system change nothing. -/
theorem sysNames_filter {ns : List Text} (h : SysNames ns) : SysNames (ns.filter isName) := by
  have hpath : ∀ d ∈ sysPaths, ∀ n ∈ segments d.toList, isName n = true := by decide
  rcases h with rfl | rfl | rfl | ⟨d, hd, rest, rfl⟩ | ⟨n, hn, hlib⟩
  · exact .inl rfl
  · exact .inr (.inl rfl)
  · exact .inr (.inr (.inl rfl))
  · refine .inr (.inr (.inr (.inl ⟨d, hd, ?_⟩)))
    rw [List.filter_append, List.filter_eq_self.mpr (hpath d hd)]
    exact List.prefix_append _ _
  · have hname : isName n = true := by
      obtain ⟨rest, rfl⟩ := hlib
      rfl
    obtain ⟨ns', rfl⟩ := List.head?_eq_some_iff.mp hn
    refine .inr (.inr (.inr (.inr ⟨n, ?_, hlib⟩)))
    rw [List.filter_cons_of_pos hname]
    rfl

/-! ## What is accepted -/

/-- The agent takes this directory for `dump_setup`. -/
def Accepts (d : Text) : Prop :=
  ∃ cmd lines, cmd.dumpDir = d ∧ d ≠ [] ∧ dump cmd "dump_setup" true = .ok lines

theorem accepts_iff (d : Text) : Accepts d ↔ dumpPathOK d = true := by
  constructor
  · rintro ⟨cmd, lines, rfl, hne, hok⟩
    unfold dump at hok
    split at hok
    · cases hok
    · split at hok
      · cases hok
      · simp only [Bool.true_eq_false, if_false] at hok
        split at hok
        · cases hok
        · next hpath => simpa [hne] using hpath
  · intro h
    have hne : d ≠ [] := by
      rintro rfl
      cases h
    have hengine : oneOf engines ['p', 'g'] = true := by decide
    have hok : ∃ lines, dump { action := "dump_setup".toList, engine := "pg".toList, dumpDir := d }
        "dump_setup" true = .ok lines := by
      simp [dump, hengine, h]
    obtain ⟨lines, hok⟩ := hok
    exact ⟨_, lines, rfl, hne, hok⟩

/-! ## Two ways to write a directory -/

theorem names_eq (t : Text) : names ('/' :: t) = (t.splitOn '/').filter isName := by
  unfold names segments
  rw [List.drop_succ_cons, List.drop_zero]
  induction t.splitOn '/' using List.reverseRecOn with
  | nil => rfl
  | append_singleton ls n ih =>
    by_cases hn : n = []
    · subst hn
      rw [List.rdropWhile_concat_pos _ _ _ (by simp), ih, List.filter_append]
      simp [isName]
    · rw [List.rdropWhile_concat_neg (fun n : Text => decide (n = [])) ls _ (by simpa using hn)]

theorem path_eq (t : Text) : '/' :: t = (t.splitOn '/').flatMap ('/' :: ·) := by
  rw [← slash_intercalate (List.splitOn_ne_nil _ _), List.intercalate_splitOn]

/-- A word without slashes stands before or behind a slash. -/
theorem word_within {w x y : Text} (hw : '/' ∉ w) (hne : w ≠ []) :
    w <:+: x ++ '/' :: y ↔ w <:+: x ∨ w <:+: y := by
  induction x with
  | nil =>
    obtain ⟨c, w, rfl⟩ := List.exists_cons_of_ne_nil hne
    have hc : c ≠ '/' := fun h => hw (h ▸ List.mem_cons_self)
    rw [List.nil_append, List.infix_cons_iff, List.cons_prefix_cons]
    simp [hc]
  | cons c x ih =>
    rw [List.cons_append, List.infix_cons_iff, ih, ← List.cons_append, prefix_word hw,
      List.infix_cons_iff, or_assoc]

theorem word_flatMap {w : Text} (hw : '/' ∉ w) (hne : w ≠ []) (ls : List Text) :
    w <:+: ls.flatMap ('/' :: ·) ↔ ∃ n ∈ ls, w <:+: n := by
  induction ls with
  | nil => simp [hne]
  | cons n ls ih =>
    have hhead : w <:+: '/' :: n ++ ls.flatMap ('/' :: ·) ↔
        w <:+: n ++ ls.flatMap ('/' :: ·) := by
      have h := @word_within w [] (n ++ ls.flatMap ('/' :: ·)) hw hne
      rw [List.nil_append] at h
      rw [List.cons_append, h]
      simp [hne]
    rw [List.flatMap_cons, hhead]
    cases ls with
    | nil => simp
    | cons m ms =>
      have hrest : (m :: ms).flatMap ('/' :: ·) = '/' :: (m ++ ms.flatMap ('/' :: ·)) := rfl
      have htail := @word_within w [] (m ++ ms.flatMap ('/' :: ·)) hw hne
      rw [List.nil_append] at htail
      rw [hrest, word_within hw hne, List.exists_mem_cons_iff, ← ih, hrest, htail]
      simp [hne]

/-- A path is refused whatever directory it denotes: it does not begin at the root, it has two
dots in a row, or a character that is not allowed. -/
def Malformed (d : Text) : Prop :=
  hasPrefix d "/" = false ∨ contains d ".." = true ∨ d.all (alnumOr "._-/") = false

/-- How a directory is written does not matter for its form. -/
theorem malformed_iff (t : Text) : Malformed ('/' :: t) ↔
    (∃ n ∈ names ('/' :: t), "..".toList <:+: n) ∨
      ∃ n ∈ names ('/' :: t), n.all (alnumOr "._-/") = false := by
  have hroot : hasPrefix ('/' :: t) "/" = true := rfl
  -- segments that are no names have no two dots, and only allowed characters
  have hname : ∀ P : Text → Prop, ¬ P [] → ¬ P ['.'] →
      ((∃ n ∈ t.splitOn '/', P n) ↔ ∃ n ∈ names ('/' :: t), P n) := by
    intro P hempty hdot
    rw [names_eq]
    constructor
    · rintro ⟨n, hn, hP⟩
      refine ⟨n, List.mem_filter.mpr ⟨hn, ?_⟩, hP⟩
      have hne : n ≠ [] := fun h => hempty (h ▸ hP)
      have hnd : n ≠ ['.'] := fun h => hdot (h ▸ hP)
      simp [isName, hne, hnd]
    · rintro ⟨n, hn, hP⟩
      exact ⟨n, (List.mem_filter.mp hn).1, hP⟩
  have hdots : contains ('/' :: t) ".." = true ↔ ∃ n ∈ names ('/' :: t), "..".toList <:+: n := by
    unfold contains
    rw [decide_eq_true_eq, path_eq t, word_flatMap (by decide) (by decide), ← path_eq t]
    exact hname ("..".toList <:+: ·) (by decide) (by decide)
  have hchars : ('/' :: t).all (alnumOr "._-/") = false ↔
      ∃ n ∈ names ('/' :: t), n.all (alnumOr "._-/") = false := by
    rw [← hname (fun n => n.all (alnumOr "._-/") = false) (by decide) (by decide), path_eq t,
      ← Bool.not_eq_true, List.all_flatMap, List.all_eq_true]
    have hslash : alnumOr "._-/" '/' = true := by decide
    simp [hslash]
  unfold Malformed
  rw [hroot, hdots, hchars]
  simp

/-- Two paths from the root denote the same directory. -/
def SameDir (d e : Text) : Prop :=
  hasPrefix d "/" = true ∧ hasPrefix e "/" = true ∧ names d = names e

/-- A path to a directory of the system has no empty and no `.` segment before the end of the
system directory's names; behind `/`, `/var` and `/home` it has slashes only. -/
def Plain (d : Text) : Prop := SysNames (names d) → SysNames (segments d) ∨ Malformed d

/-- A path from the root that is well formed is accepted when it shows no directory of the
system. -/
theorem accepts_root (t : Text) :
    Accepts ('/' :: t) ↔ ¬ Malformed ('/' :: t) ∧ ¬ SysNames (segments ('/' :: t)) := by
  rw [accepts_iff, ← dumpSysDir_iff]
  unfold dumpPathOK dumpDirOK Malformed
  simp only [Bool.and_eq_true, Bool.not_eq_eq_eq_not, Bool.not_true, not_or, Bool.not_eq_false,
    Bool.not_eq_true, and_assoc]

theorem accepts_safe_iff (d : Text) : (Accepts d → ¬ SysNames (names d)) ↔ Plain d := by
  unfold Plain
  by_cases hroot : hasPrefix d "/" = true
  · obtain ⟨t, rfl⟩ : ∃ t, d = '/' :: t := by
      obtain ⟨t, rfl⟩ := List.isPrefixOf_iff_prefix.mp hroot
      exact ⟨t, rfl⟩
    rw [accepts_root]
    constructor
    · intro h hsys
      by_contra hno
      rw [not_or] at hno
      exact h ⟨hno.2, hno.1⟩ hsys
    · rintro h ⟨hform, hseg⟩ hsys
      exact (h hsys).elim hseg hform
  · have hno : hasPrefix d "/" = false := Bool.eq_false_iff.mpr hroot
    have hrefused : ¬ Accepts d := by
      rw [accepts_iff, dumpPathOK, hno]
      simp
    exact ⟨fun _ _ => .inr (.inl hno), fun _ h => absurd h hrefused⟩

theorem dump_paths_right (d e : Text) :
    (Accepts d → ¬ SysNames (names d)) ∧ (Accepts e → ¬ SysNames (names e)) ∧
      (SameDir d e → (Accepts d ↔ Accepts e)) ↔ Plain d ∧ Plain e := by
  rw [accepts_safe_iff, accepts_safe_iff]
  refine ⟨fun h => ⟨h.1, h.2.1⟩, fun h => ⟨h.1, h.2, ?_⟩⟩
  rintro ⟨hd, he, hnames⟩
  obtain ⟨hplaind, hplaine⟩ := h
  obtain ⟨t, rfl⟩ := List.isPrefixOf_iff_prefix.mp hd
  obtain ⟨u, rfl⟩ := List.isPrefixOf_iff_prefix.mp he
  have hform : Malformed ('/' :: t) ↔ Malformed ('/' :: u) := by
    rw [malformed_iff, malformed_iff]
    exact hnames ▸ Iff.rfl
  have hshown : ∀ s, SysNames (segments ('/' :: s)) → SysNames (names ('/' :: s)) := fun s =>
    sysNames_filter
  have hd' := hshown t
  have he' := hshown u
  have hsame : SysNames (names ('/' :: t)) ↔ SysNames (names ('/' :: u)) := hnames ▸ Iff.rfl
  change Accepts ('/' :: t) ↔ Accepts ('/' :: u)
  rw [accepts_root, accepts_root]
  unfold Plain at hplaind hplaine
  change SysNames (names ('/' :: t)) → _ at hplaind
  change SysNames (names ('/' :: u)) → _ at hplaine
  tauto

/-- `//etc` is accepted. -/
theorem second_slash_accepted :
    ¬ ∀ d e, (Accepts d → ¬ SysNames (names d)) ∧ (Accepts e → ¬ SysNames (names e)) ∧
      (SameDir d e → (Accepts d ↔ Accepts e)) := by
  intro h
  have haccepts : Accepts "//etc".toList := (accepts_iff _).mpr (by decide)
  refine (h "//etc".toList "/etc".toList).1 haccepts (.inr (.inr (.inr (.inl ⟨"/etc/", ?_, ?_⟩))))
  · decide
  · exact ⟨[], by decide⟩

end Kervax.Spools
