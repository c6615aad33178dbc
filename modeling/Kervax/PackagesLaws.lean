-- The journal of installs over all the reports of a server: every line is taken once and in
-- the order of time, and the events of the timeline are those of the lines, however the
-- reports cut them.
import Kervax.Packages
import Mathlib.Data.List.Dedup

namespace Kervax.Packages

/-- A report: when it came, and its lines. -/
abbrev Report := Int × List Line

/-- The lines that the reports brought and that were new. -/
def taken (r : Row) : List Report → List Line
  | [] => []
  | b :: bs => (scan r b.1 b.2).fresh ++ taken (scan r b.1 b.2).row bs

/-- The panel after the reports. -/
def stored (s : Panel) (bs : List Report) : Panel := bs.foldl (fun s b => storeEvents s b.1 b.2) s

/-- The row after the reports. -/
def rowAfter (r : Row) (bs : List Report) : Row := bs.foldl (fun r b => (scan r b.1 b.2).row) r

theorem taken_append (r : Row) (bs cs : List Report) :
    taken r (bs ++ cs) = taken r bs ++ taken (rowAfter r bs) cs := by
  induction bs generalizing r with
  | nil => rfl
  | cons b bs ih => simp [taken, ih, rowAfter]

/-! ## One line -/

/-- Two lines are the same one for the panel. -/
def Line.same (a b : Line) : Prop := a.t = b.t ∧ a.key = b.key

/-- What the loop knows of the lines `T` that were taken so far. -/
structure Knows (T : List Line) (last : Int) (keys : List String) : Prop where
  ordered : T.Pairwise fun a b => a.t ≤ b.t
  upper : ∀ l ∈ T, l.t ≤ last
  nodup : keys.Nodup
  back : ∀ k ∈ keys, ∃ l ∈ T, l.t = last ∧ l.key = k
  reached : last = 0 ∨ ∃ l ∈ T, l.t = last

/-- None of the lines of the last second was forgotten. -/
structure Whole (T : List Line) (last : Int) (keys : List String) : Prop where
  once : T.Pairwise fun a b => ¬ a.same b
  kept : ∀ l ∈ T, l.t = last → l.key ∈ keys

/-- What one turn of the loop can do. -/
theorem look_cases (now : Int) (s : Scan) (e : Line) :
    (Scan.look now s e = s ∧ (e.fits now = false ∨ s.seen e = true)) ∨
    (Scan.look now s e = { last := e.t, keys := [e.key], fresh := s.fresh ++ [e] } ∧ s.last < e.t) ∨
    (Scan.look now s e = { last := e.t, keys := s.keys.insert e.key, fresh := s.fresh ++ [e] } ∧
      s.last = e.t ∧ e.key ∉ s.keys) := by
  unfold Scan.look
  cases hf : e.fits now with
  | false => simp
  | true =>
    cases hs : s.seen e with
    | true => simp
    | false =>
      obtain ⟨hle, hkey⟩ : s.last ≤ e.t ∧ (e.t = s.last → e.key ∉ s.keys) := by
        simpa [Scan.seen] using hs
      rcases Int.lt_or_eq_of_le hle with hlt | heq
      · simp [hlt, Int.le_of_lt hlt]
      · exact .inr (.inr ⟨by simp [heq], heq, hkey heq.symm⟩)

theorem Knows.look {H : List Line} {s : Scan} (h : Knows (H ++ s.fresh) s.last s.keys) (now : Int)
    (e : Line) : Knows (H ++ (s.look now e).fresh) (s.look now e).last (s.look now e).keys := by
  rcases look_cases now s e with ⟨heq, -⟩ | ⟨heq, hlt⟩ | ⟨heq, hlast, hkey⟩
  · rwa [heq]
  · rw [heq, ← List.append_assoc]
    constructor
    · refine List.pairwise_append.mpr ⟨h.ordered, List.pairwise_singleton _ _, ?_⟩
      intro a ha b hb
      rw [List.mem_singleton.mp hb]
      have := h.upper a ha
      omega
    · intro l hl
      rcases List.mem_append.mp hl with hl | hl
      · have := h.upper l hl
        simp only
        omega
      · rw [List.mem_singleton.mp hl]
    · exact List.nodup_singleton _
    · intro k hk
      exact ⟨e, by simp, rfl, (List.mem_singleton.mp hk).symm⟩
    · exact .inr ⟨e, by simp, rfl⟩
  · rw [heq, ← List.append_assoc]
    constructor
    · refine List.pairwise_append.mpr ⟨h.ordered, List.pairwise_singleton _ _, ?_⟩
      intro a ha b hb
      rw [List.mem_singleton.mp hb, ← hlast]
      exact h.upper a ha
    · intro l hl
      rcases List.mem_append.mp hl with hl | hl
      · exact le_of_le_of_eq (h.upper l hl) hlast
      · rw [List.mem_singleton.mp hl]
    · exact h.nodup.insert
    · intro k hk
      rcases List.mem_insert_iff.mp hk with rfl | hk
      · exact ⟨e, by simp, rfl, rfl⟩
      · obtain ⟨l, hl, ht, hlk⟩ := h.back k hk
        exact ⟨l, List.mem_append_left _ hl, ht.trans hlast, hlk⟩
    · exact .inr ⟨e, by simp, rfl⟩

theorem Whole.look {H : List Line} {s : Scan} (h : Knows (H ++ s.fresh) s.last s.keys)
    (hw : Whole (H ++ s.fresh) s.last s.keys) (now : Int) (e : Line) :
    Whole (H ++ (s.look now e).fresh) (s.look now e).last (s.look now e).keys := by
  rcases look_cases now s e with ⟨heq, -⟩ | ⟨heq, hlt⟩ | ⟨heq, hlast, hkey⟩
  · rwa [heq]
  · rw [heq, ← List.append_assoc]
    constructor
    · refine List.pairwise_append.mpr ⟨hw.once, List.pairwise_singleton _ _, ?_⟩
      intro a ha b hb hsame
      rw [List.mem_singleton.mp hb] at hsame
      have := h.upper a ha
      have := hsame.1
      omega
    · intro l hl ht
      rcases List.mem_append.mp hl with hl | hl
      · have := h.upper l hl
        simp only at ht
        omega
      · simp [List.mem_singleton.mp hl]
  · rw [heq, ← List.append_assoc]
    constructor
    · refine List.pairwise_append.mpr ⟨hw.once, List.pairwise_singleton _ _, ?_⟩
      intro a ha b hb hsame
      rw [List.mem_singleton.mp hb] at hsame
      exact hkey (hsame.2 ▸ hw.kept a ha (hsame.1.trans hlast.symm))
    · intro l hl ht
      rcases List.mem_append.mp hl with hl | hl
      · exact List.mem_insert_of_mem (hw.kept l hl (ht.trans hlast.symm))
      · simp [List.mem_singleton.mp hl]

/-! ## One report -/

/-- The loop over the lines of a report keeps what it knows. -/
theorem Knows.scan_loop {H : List Line} {s : Scan} (h : Knows (H ++ s.fresh) s.last s.keys)
    (now : Int) (es : List Line) :
    Knows (H ++ (es.foldl (Scan.look now) s).fresh) (es.foldl (Scan.look now) s).last
      (es.foldl (Scan.look now) s).keys := by
  induction es generalizing s with
  | nil => exact h
  | cons e es ih => exact ih (h.look now e)

theorem Whole.scan_loop {H : List Line} {s : Scan} (h : Knows (H ++ s.fresh) s.last s.keys)
    (hw : Whole (H ++ s.fresh) s.last s.keys) (now : Int) (es : List Line) :
    Whole (H ++ (es.foldl (Scan.look now) s).fresh) (es.foldl (Scan.look now) s).last
      (es.foldl (Scan.look now) s).keys := by
  induction es generalizing s with
  | nil => exact hw
  | cons e es ih => exact ih (h.look now e) (Whole.look h hw now e)

theorem look_fresh (now : Int) (s : Scan) (e : Line) :
    (s.look now e).fresh = s.fresh ∨ (s.look now e).fresh = s.fresh ++ [e] := by
  rcases look_cases now s e with ⟨heq, -⟩ | ⟨heq, -⟩ | ⟨heq, -, -⟩ <;> simp [heq]

theorem fresh_grows (now : Int) (s : Scan) (es : List Line) :
    s.fresh <+: (es.foldl (Scan.look now) s).fresh := by
  induction es generalizing s with
  | nil => exact List.prefix_refl _
  | cons e es ih =>
    refine List.IsPrefix.trans ?_ (ih _)
    rcases look_fresh now s e with heq | heq <;> simp [heq]

/-- What was taken from a report stood in it. -/
theorem mem_fresh_loop {now : Int} {s : Scan} {es : List Line} {l : Line}
    (h : l ∈ (es.foldl (Scan.look now) s).fresh) : l ∈ s.fresh ∨ l ∈ es := by
  induction es generalizing s with
  | nil => exact .inl h
  | cons e es ih =>
    rcases ih h with hl | hl
    · rcases look_fresh now s e with heq | heq <;> rw [heq] at hl
      · exact .inl hl
      · rcases List.mem_append.mp hl with hl | hl
        · exact .inl hl
        · exact .inr (by simp [List.mem_singleton.mp hl])
    · exact .inr (List.mem_cons_of_mem _ hl)

theorem mem_fresh {r : Row} {now : Int} {lines : List Line} {l : Line}
    (h : l ∈ (scan r now lines).fresh) : l ∈ lines := by
  rcases mem_fresh_loop h with hl | hl
  · cases hl
  · exact List.mem_of_mem_take (Clusters.mem_sorted.mp hl)

/-- Of a sorted report every good line that is not too old was taken, or one like it. -/
theorem taken_of_sorted {H : List Line} {s : Scan} (h : Knows (H ++ s.fresh) s.last s.keys)
    {now bound : Int} {es : List Line} (hsort : es.Pairwise fun a b => a.t ≤ b.t)
    (hlast : ∀ e ∈ es, bound ≤ e.t → s.last ≤ e.t) {e : Line} (he : e ∈ es)
    (hfit : e.fits now = true) (hb : bound ≤ e.t) :
    ∃ l ∈ H ++ (es.foldl (Scan.look now) s).fresh, l.same e := by
  induction es generalizing s with
  | nil => cases he
  | cons d es ih =>
    obtain ⟨hd, hes⟩ := List.pairwise_cons.mp hsort
    rcases List.mem_cons.mp he with rfl | he
    · -- the line is there after its own turn, and stays
      have hgrow := fresh_grows now (s.look now e) es
      suffices hs : ∃ l ∈ H ++ (s.look now e).fresh, l.same e by
        obtain ⟨l, hl, hsame⟩ := hs
        refine ⟨l, ?_, hsame⟩
        rcases List.mem_append.mp hl with hl | hl
        · exact List.mem_append_left _ hl
        · exact List.mem_append_right _ (hgrow.subset hl)
      have hle := hlast e List.mem_cons_self hb
      rcases look_cases now s e with ⟨heq, hno | hseen⟩ | ⟨heq, -⟩ | ⟨heq, -, -⟩ <;> rw [heq]
      · simp [hfit] at hno
      · obtain hlt | ⟨ht, hkey⟩ : e.t < s.last ∨ e.t = s.last ∧ e.key ∈ s.keys := by
          simpa [Scan.seen] using hseen
        · omega
        · obtain ⟨l, hl, hlt, hlk⟩ := h.back _ hkey
          exact ⟨l, hl, hlt.trans ht.symm, hlk⟩
      · exact ⟨e, by simp, rfl, rfl⟩
      · exact ⟨e, by simp, rfl, rfl⟩
    · apply ih (h.look now d) hes _ he
      intro x hx hbx
      have hsx := hlast x (List.mem_cons_of_mem _ hx) hbx
      have hdx := hd x hx
      rcases look_cases now s d with ⟨heq, -⟩ | ⟨heq, -⟩ | ⟨heq, -, -⟩ <;> rw [heq]
      · exact hsx
      · exact hdx
      · exact hdx

/-! ## All reports -/

theorem mem_keepKeys {keys : List String} {k : String} (h : k ∈ keepKeys keys) : k ∈ keys :=
  (List.mem_insertionSort _).mp (List.mem_of_mem_take h)

theorem nodup_keepKeys {keys : List String} (h : keys.Nodup) : (keepKeys keys).Nodup :=
  ((List.perm_insertionSort _ _).nodup_iff.mpr h).sublist (List.take_sublist _ _)

theorem keepKeys_of_few {keys : List String} (h : keys.length ≤ 300) {k : String} (hk : k ∈ keys) :
    k ∈ keepKeys keys := by
  unfold keepKeys
  rw [List.take_of_length_le (by simpa using h)]
  exact (List.mem_insertionSort _).mpr hk

theorem Knows.row {T : List Line} {s : Scan} (h : Knows T s.last s.keys) :
    Knows T s.row.evTs s.row.evKeys where
  ordered := h.ordered
  upper := h.upper
  nodup := nodup_keepKeys h.nodup
  back k hk := h.back k (mem_keepKeys hk)
  reached := h.reached

theorem Knows.report {H : List Line} {r : Row} (h : Knows H r.evTs r.evKeys) (now : Int)
    (lines : List Line) : Knows (H ++ (scan r now lines).fresh) (scan r now lines).row.evTs
      (scan r now lines).row.evKeys :=
  (Knows.scan_loop (s := ⟨r.evTs, r.evKeys, []⟩) (by simpa using h) now _).row

theorem Knows.reports {H : List Line} {r : Row} (h : Knows H r.evTs r.evKeys) (bs : List Report) :
    Knows (H ++ taken r bs) (rowAfter r bs).evTs (rowAfter r bs).evKeys := by
  induction bs generalizing H r with
  | nil => simpa [taken, rowAfter] using h
  | cons b bs ih =>
    have hrest := ih (h.report b.1 b.2)
    rw [List.append_assoc] at hrest
    exact hrest

theorem knows_new : Knows [] Row.new.evTs Row.new.evKeys := by
  constructor <;> simp [Row.new]

/-- No second has more than 300 different lines. -/
def Few (all : List Line) : Prop :=
  ∀ t, ((all.filter (·.t = t)).map Line.key).dedup.length ≤ 300

theorem few_of_length {all : List Line} (h : all.length ≤ 300) : Few all := by
  intro t
  calc ((all.filter (·.t = t)).map Line.key).dedup.length
      ≤ ((all.filter (·.t = t)).map Line.key).length := (List.dedup_sublist _).length_le
    _ = (all.filter (·.t = t)).length := List.length_map _
    _ ≤ all.length := List.length_filter_le _ _
    _ ≤ 300 := h

theorem Knows.few {T all : List Line} {last : Int} {keys : List String} (h : Knows T last keys)
    (hsub : T ⊆ all) (hfew : Few all) : keys.length ≤ 300 := by
  refine le_trans (List.subperm_of_subset h.nodup ?_).length_le (hfew last)
  intro k hk
  obtain ⟨l, hl, ht, hlk⟩ := h.back k hk
  rw [List.mem_dedup]
  exact List.mem_map.mpr ⟨l, List.mem_filter.mpr ⟨hsub hl, by simpa using ht⟩, hlk⟩

theorem Whole.reports {H all : List Line} {r : Row} (h : Knows H r.evTs r.evKeys)
    (hw : Whole H r.evTs r.evKeys) (hfew : Few all) (hH : H ⊆ all) {bs : List Report}
    (hbs : bs.flatMap Prod.snd ⊆ all) :
    Whole (H ++ taken r bs) (rowAfter r bs).evTs (rowAfter r bs).evKeys := by
  induction bs generalizing H r with
  | nil => simpa [taken, rowAfter] using hw
  | cons b bs ih =>
    rw [List.flatMap_cons, List.append_subset] at hbs
    have hk : Knows (H ++ (Scan.mk r.evTs r.evKeys []).fresh) r.evTs r.evKeys := by simpa using h
    have hloop : Knows (H ++ (scan r b.1 b.2).fresh) (scan r b.1 b.2).last (scan r b.1 b.2).keys :=
      Knows.scan_loop (s := ⟨r.evTs, r.evKeys, []⟩) hk b.1 _
    have hwhole : Whole (H ++ (scan r b.1 b.2).fresh) (scan r b.1 b.2).last (scan r b.1 b.2).keys :=
      Whole.scan_loop (s := ⟨r.evTs, r.evKeys, []⟩) hk (by simpa using hw) b.1 _
    have hsub : H ++ (scan r b.1 b.2).fresh ⊆ all :=
      List.append_subset.mpr ⟨hH, fun l hl => hbs.1 (mem_fresh hl)⟩
    have hrow : Whole (H ++ (scan r b.1 b.2).fresh) (scan r b.1 b.2).row.evTs
        (scan r b.1 b.2).row.evKeys :=
      ⟨hwhole.once, fun l hl ht => keepKeys_of_few (hloop.few hsub hfew) (hwhole.kept l hl ht)⟩
    have hrest := ih (h.report b.1 b.2) hrow hsub hbs.2
    rw [List.append_assoc] at hrest
    exact hrest

/-- A good line of a report that is not older than the last line before it was taken. -/
theorem taken_of_report {H : List Line} {r : Row} (h : Knows H r.evTs r.evKeys) {b : Report}
    {e : Line} (he : e ∈ b.2.take MAX_EVENTS) (hfit : e.fits b.1 = true) (hb : r.evTs ≤ e.t) :
    ∃ l ∈ H ++ (scan r b.1 b.2).fresh, l.same e :=
  taken_of_sorted (s := ⟨r.evTs, r.evKeys, []⟩) (by simpa using h)
    (Clusters.pairwise_sorted _) (fun _ _ hle => hle) (Clusters.mem_sorted.mpr he) hfit hb

theorem whole_new : Whole [] Row.new.evTs Row.new.evKeys := by
  constructor <;> simp

/-- Over all the reports of a server the panel takes the lines in the order of time and each
of them once; and a good line of a report is taken, unless a later one was before. -/
theorem journal_taken_once (bs : List Report) (hfew : Few (bs.flatMap Prod.snd)) :
    (taken .new bs).Pairwise (fun a b => a.t ≤ b.t ∧ ¬ a.same b) ∧
    ∀ cs b ds, bs = cs ++ b :: ds → ∀ e ∈ b.2.take MAX_EVENTS, e.fits b.1 = true → 0 ≤ e.t →
      (∃ l ∈ taken .new (cs ++ [b]), l.same e) ∨ ∃ l ∈ taken .new cs, e.t < l.t := by
  constructor
  · have hk := knows_new.reports bs
    have hw := Whole.reports knows_new whole_new hfew (List.nil_subset _) (List.Subset.refl _)
    simp only [List.nil_append] at hk hw
    exact hk.ordered.and hw.once
  · intro cs b ds _ e he hfit hpos
    have hk := knows_new.reports cs
    simp only [List.nil_append] at hk
    by_cases hle : (rowAfter .new cs).evTs ≤ e.t
    · left
      obtain ⟨l, hl, hsame⟩ := taken_of_report hk he hfit hle
      exact ⟨l, by simpa [taken_append, taken] using hl, hsame⟩
    · right
      rcases hk.reached with hzero | ⟨l, hl, ht⟩
      · omega
      · exact ⟨l, hl, by omega⟩

theorem journal_taken_once_again :
    (taken .new [(9000, [⟨8000, "upgrade", "openssl", "1", "2"⟩]),
      (9060, [⟨8000, "upgrade", "openssl", "1", "2"⟩])]).Pairwise
        (fun a b => a.t ≤ b.t ∧ ¬ a.same b) :=
  (journal_taken_once _ (few_of_length (by decide))).1

end Kervax.Packages
