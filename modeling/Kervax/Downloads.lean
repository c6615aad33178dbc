-- What the download by pieces brings: the file that the panel serves, as
-- long as the pieces of an earlier attempt are the beginning of this file.
import Kervax.SelfUpdate

namespace Kervax.Agent

/-! ## A panel that serves a file -/

/-- The answer is taken from this file, or there is none; a body that came short
was broken off. -/
def Reply.From (file : Bytes) : Reply → Prop
  | .failed => True
  | .answered status body broken =>
    status = 200 → body.IsPrefix file ∧ (broken = false → body = file)

/-- The text that a piece from `first` on must begin its range with. -/
def rangeText (first : Nat) : List Char := ("bytes " ++ toString first ++ "-").toList

/-- A piece that says that it begins at `first` is taken from there. -/
def RangeReply.From (file : Bytes) (first : Nat) : RangeReply → Prop
  | .failed => True
  | .answered status contentRange body =>
    status = 206 → (rangeText first).isPrefixOf contentRange.toList = true →
      body.IsPrefix (file.drop first)

/-- Whatever comes, comes from this file. -/
structure Download.From (file : Bytes) (e : Download) : Prop where
  range : ∀ n first last, (e.range n first last).From file first
  whole : e.whole.From file

/-- The answer to a request for a range that nothing disturbs. -/
def served (file : Bytes) (first last : Nat) : RangeReply :=
  .answered 206 ("bytes " ++ toString first ++ "-" ++ toString last ++ "/" ++ toString file.length)
    ((file.drop first).take (last - first + 1))

/-- A download that nothing disturbs. -/
structure Download.Serves (file : Bytes) (e : Download) : Prop where
  range : ∀ n first last, e.range n first last = served file first last
  inTime : ∀ n, e.late n = false

theorem httpGetLimited_from {file : Bytes} {r : Reply} {max : Nat} (h : r.From file)
    (hm : file.length ≤ max) {got : Bytes} (hg : httpGetLimited r max = some got) :
    got = file := by
  cases r with
  | failed => cases hg
  | answered status body broken =>
    unfold httpGetLimited at hg
    dsimp only at hg
    split at hg
    · cases hg
    · next hs =>
      split at hg
      · cases hg
      · next hb =>
        obtain ⟨hpre, hwhole⟩ := h (not_not.mp hs)
        obtain rfl : body.take max = got := by simpa using hg
        have hle := hpre.length_le
        rw [List.take_of_length_le (le_trans hle hm)]
        cases hbr : broken with
        | false => exact hwhole hbr
        | true =>
          rw [hbr] at hb
          apply hpre.eq_of_length
          have : ¬ body.length < max := fun hlt => hb ⟨rfl, hlt⟩
          omega

theorem fetchRange_from {file : Bytes} {r : RangeReply} {first last : Nat} (h : r.From file first) :
    (fetchRange r first last).bytes.IsPrefix (file.drop first) := by
  cases r with
  | failed => exact List.nil_prefix
  | answered status contentRange body =>
    unfold fetchRange
    dsimp only
    split
    · exact List.nil_prefix
    · next hs =>
      split
      · exact List.nil_prefix
      · next hc =>
        exact (List.take_prefix _ _).trans (h (not_not.mp hs) (not_not.mp hc))

theorem fetchRange_served (file : Bytes) (first last : Nat) (hl : last < file.length)
    (hf : first ≤ last) :
    fetchRange (served file first last) first last =
      { bytes := (file.drop first).take (last - first + 1), whole := true } := by
  have hlen : ((file.drop first).take (last - first + 1)).length = last - first + 1 := by
    rw [List.length_take, List.length_drop]
    omega
  unfold fetchRange served
  simp [hlen, List.take_take]

/-! ## One turn of the loop -/

@[simp] theorem Transfer.take_buf (s : Transfer) (b : Bytes) (wrote : Option Nat) :
    (s.take b wrote).buf = s.buf ++ b := by
  unfold Transfer.take
  dsimp only
  split
  · split <;> rfl
  · rfl

@[simp] theorem Transfer.take_chunk (s : Transfer) (b : Bytes) (wrote : Option Nat) :
    (s.take b wrote).chunk = s.chunk ∧ (s.take b wrote).ceiling = s.ceiling := by
  unfold Transfer.take
  dsimp only
  split
  · split <;> exact ⟨rfl, rfl⟩
  · exact ⟨rfl, rfl⟩

@[simp] theorem Transfer.take_nil (s : Transfer) (wrote : Option Nat) :
    (s.take [] wrote).file = s.file := by
  unfold Transfer.take
  rw [if_neg (fun h => h.1 rfl)]

/-- The last byte that is asked for. -/
def Transfer.last (size : Nat) (s : Transfer) : Nat :=
  min (s.buf.length + s.chunk - 1) (size - 1)

/-- What comes of the request of a turn. -/
def Transfer.piece (e : Download) (size : Nat) (s : Transfer) : Piece :=
  fetchRange (e.range s.attempts s.buf.length (s.last size)) s.buf.length (s.last size)

/-- One turn of the loop, from its request on: what the download ends with, or how it goes on. -/
def turn (e : Download) (size : Nat) (s : Transfer) : (Option Bytes × Option Bytes) ⊕ Transfer :=
  let p := s.piece e size
  let t := { s with attempts := s.attempts + 1 }
  if p.noRange then .inl (httpGetLimited e.whole (size + 1), s.file)
  else if p.whole then
    .inr { t.take p.bytes (e.writes s.attempts) with
      fails := 0
      chunk := if s.chunk < s.ceiling then min (s.chunk * 2) s.ceiling else s.chunk }
  else
    let t :=
      { t.take p.bytes (e.writes s.attempts) with
        ceiling := max dlChunkMin (s.chunk / 2), chunk := max dlChunkMin (s.chunk / 8) }
    if p.bytes ≠ [] then .inr { t with fails := 0 }
    else if dlFailsMax ≤ s.fails + 1 then .inl (none, t.file)
    else .inr { t with fails := s.fails + 1 }

theorem chunkLoop_turn (e : Download) (size left : Nat) (s : Transfer) :
    chunkLoop e size (left + 1) s =
      if size ≤ s.buf.length then (some s.buf, s.file)
      else if e.late s.attempts then (none, s.file)
      else
        match turn e size s with
        | .inl r => r
        | .inr t => chunkLoop e size left t := by
  rw [chunkLoop.eq_def]
  dsimp only
  by_cases hlen : size ≤ s.buf.length
  · rw [if_pos hlen, if_pos hlen]
  rw [if_neg hlen, if_neg hlen]
  by_cases hlate : e.late s.attempts = true
  · simp only [if_pos hlate]
  simp only [if_neg hlate]
  -- the piece of this request
  change (if (s.piece e size).noRange = true then _
    else if (s.piece e size).whole = true then _
    else if (s.piece e size).bytes ≠ [] then _ else _) = _
  unfold turn
  by_cases hno : (s.piece e size).noRange = true
  · simp only [if_pos hno]
  by_cases hwhole : (s.piece e size).whole = true
  · simp only [if_neg hno, if_pos hwhole]
    rfl
  by_cases hbytes : (s.piece e size).bytes ≠ []
  · simp only [if_neg hno, if_neg hwhole, if_pos hbytes]
    rfl
  by_cases hfails : dlFailsMax ≤ s.fails + 1
  · simp only [if_neg hno, if_neg hwhole, if_neg hbytes, if_pos hfails]
    rfl
  · simp only [if_neg hno, if_neg hwhole, if_neg hbytes, if_neg hfails]
    rfl

/-- A turn that ends the download leaves the file as it was. -/
theorem turn_ends {e : Download} {size : Nat} {s : Transfer} {r : Option Bytes × Option Bytes}
    (h : turn e size s = .inl r) :
    r = (none, s.file) ∨ r = (httpGetLimited e.whole (size + 1), s.file) := by
  unfold turn at h
  dsimp only at h
  split at h
  · exact .inr (Sum.inl.inj h).symm
  · split at h
    · cases h
    · split at h
      · cases h
      · next hb =>
        split at h
        · refine .inl ?_
          rw [← Sum.inl.inj h, not_not.mp hb, Transfer.take_nil]
        · cases h

/-- A turn after which the download goes on: what came stands in the buffer and in the file. -/
structure Turned (e : Download) (size : Nat) (s t : Transfer) : Prop where
  buf : t.buf = s.buf ++ (s.piece e size).bytes
  file : t.file = (s.take (s.piece e size).bytes (e.writes s.attempts)).file
  isOpen : t.isOpen = (s.take (s.piece e size).bytes (e.writes s.attempts)).isOpen
  chunk : t.chunk = max dlChunkMin (s.chunk / 8) ∨ t.chunk = s.chunk ∨
    s.chunk < s.ceiling ∧ t.chunk = min (s.chunk * 2) s.ceiling
  ceiling : t.ceiling = s.ceiling ∨ t.ceiling = max dlChunkMin (s.chunk / 2)

theorem Transfer.take_attempts (s : Transfer) (n : Nat) (b : Bytes) (wrote : Option Nat) :
    ({ s with attempts := n }.take b wrote).file = (s.take b wrote).file ∧
      ({ s with attempts := n }.take b wrote).isOpen = (s.take b wrote).isOpen := by
  unfold Transfer.take
  dsimp only
  split
  · split <;> exact ⟨rfl, rfl⟩
  · exact ⟨rfl, rfl⟩

theorem turn_goes_on {e : Download} {size : Nat} {s t : Transfer} (h : turn e size s = .inr t) :
    Turned e size s t := by
  obtain ⟨hfile, hopen⟩ :=
    s.take_attempts (s.attempts + 1) (s.piece e size).bytes (e.writes s.attempts)
  unfold turn at h
  dsimp only at h
  split at h
  · cases h
  · split at h
    · obtain rfl := Sum.inr.inj h
      refine ⟨by simp, hfile, hopen, .inr ?_, .inl (by simp)⟩
      dsimp only
      split
      · next hlt => exact .inr ⟨hlt, rfl⟩
      · exact .inl rfl
    · split at h
      · obtain rfl := Sum.inr.inj h
        exact ⟨by simp, hfile, hopen, .inl rfl, .inr rfl⟩
      · split at h
        · cases h
        · obtain rfl := Sum.inr.inj h
          exact ⟨by simp, hfile, hopen, .inl rfl, .inr rfl⟩

/-! ## The loop -/

/-- How the loop ends in a state: with the whole buffer, with nothing, or with the answer to the
request without ranges. -/
def EndsIn (e : Download) (size : Nat) (r : Option Bytes × Option Bytes) (t : Transfer) : Prop :=
  r = (some t.buf, t.file) ∧ size ≤ t.buf.length ∨ r = (none, t.file) ∨
    r = (httpGetLimited e.whole (size + 1), t.file)

/-- What every turn keeps holds where the loop ends. -/
theorem chunkLoop_keeps {e : Download} {size : Nat} {P : Transfer → Prop}
    (hP : ∀ s t, P s → s.buf.length < size → turn e size s = .inr t → P t) (left : Nat)
    {s : Transfer} (hs : P s) : ∃ t, P t ∧ EndsIn e size (chunkLoop e size left s) t := by
  induction left generalizing s with
  | zero =>
    refine ⟨s, hs, ?_⟩
    unfold chunkLoop
    split
    · next hlen => exact .inl ⟨rfl, hlen⟩
    · exact .inr (.inl rfl)
  | succ left ih =>
    rw [chunkLoop_turn]
    split
    · next hlen => exact ⟨s, hs, .inl ⟨rfl, hlen⟩⟩
    · next hlen =>
      split
      · exact ⟨s, hs, .inr (.inl rfl)⟩
      · split
        · next r hr => exact ⟨s, hs, .inr (turn_ends hr)⟩
        · next t ht => exact ih (hP s t hs (not_le.mp hlen) ht)

/-- A piece from the right place makes the beginning longer. -/
theorem prefix_append_drop {α : Type} {xs ys file : List α} (hx : xs.IsPrefix file)
    (hy : ys.IsPrefix (file.drop xs.length)) : (xs ++ ys).IsPrefix file := by
  obtain ⟨rest, rfl⟩ := hx
  rw [List.drop_left] at hy
  obtain ⟨more, rfl⟩ := hy
  exact ⟨more, by simp⟩

/-- The loop never gives anything but the file, if it starts from a beginning of
it. -/
theorem chunkLoop_from {file : Bytes} {e : Download} (he : e.From file) {left : Nat}
    {s : Transfer} (hs : s.buf.IsPrefix file) {got : Bytes}
    (hg : (chunkLoop e file.length left s).1 = some got) : got = file := by
  have hkeeps : ∀ s t : Transfer, s.buf.IsPrefix file → s.buf.length < file.length →
      turn e file.length s = .inr t → t.buf.IsPrefix file := by
    intro s t hs _ ht
    rw [(turn_goes_on ht).buf]
    exact prefix_append_drop hs (fetchRange_from (he.range ..))
  obtain ⟨t, ht, hend⟩ := chunkLoop_keeps hkeeps left hs
  rcases hend with ⟨hr, hlen⟩ | hr | hr <;> rw [hr] at hg
  · obtain rfl : t.buf = got := Option.some.inj hg
    exact ht.eq_of_length (le_antisymm ht.length_le hlen)
  · cases hg
  · exact httpGetLimited_from he.whole (Nat.le_succ _) hg

/-- A loop that nothing disturbs brings the rest of the file. -/
theorem chunkLoop_serves {file : Bytes} {e : Download} (he : e.Serves file) {left : Nat}
    {s : Transfer} (hc : s.chunk = dlChunkMax) (hce : s.ceiling = dlChunkMax)
    (hleft : file.length ≤ s.buf.length + left * dlChunkMax) :
    (chunkLoop e file.length left s).1 = some (s.buf ++ file.drop s.buf.length) := by
  induction left generalizing s with
  | zero =>
    have hlen : file.length ≤ s.buf.length := by omega
    unfold chunkLoop
    rw [if_pos hlen, List.drop_eq_nil_of_le hlen, List.append_nil]
  | succ left ih =>
    by_cases hlen : file.length ≤ s.buf.length
    · unfold chunkLoop
      rw [if_pos hlen, List.drop_eq_nil_of_le hlen, List.append_nil]
    · have hpos : 0 < dlChunkMax := by decide
      have hfetch := fetchRange_served file s.buf.length
        (min (s.buf.length + s.chunk - 1) (file.length - 1)) (by omega) (by omega)
      unfold chunkLoop
      rw [if_neg hlen]
      dsimp only
      rw [he.inTime, if_neg (by simp), he.range, hfetch]
      simp only [Bool.false_eq_true, if_false, if_true]
      rw [ih (by simp [hc, hce]) (by simp [hce])]
      · simp only [Transfer.take_buf, List.length_append, List.length_take, List.length_drop,
          List.append_assoc]
        congr 1
        congr 1
        have hn : min (min (s.buf.length + s.chunk - 1) (file.length - 1) - s.buf.length + 1)
            (file.length - s.buf.length) =
            min (s.buf.length + s.chunk - 1) (file.length - 1) - s.buf.length + 1 := by omega
        rw [hn, ← List.drop_drop, List.take_append_drop]
      · simp only [Transfer.take_buf, List.length_append, List.length_take, List.length_drop]
        rw [Nat.add_mul] at hleft
        omega

/-! ## The whole download -/

/-- The file of the earlier attempts, if it is read and not too long, is the
beginning of this file. -/
def PartOk (file : Bytes) (e : Download) (parts : Parts) (name : Option PartName) : Prop :=
  ∀ n old, name = some n → parts n = some old → e.reads = true → old.length < file.length →
    old.IsPrefix file

/-- What the loop starts from. -/
theorem Transfer.start_buf {e : Download} {file : Bytes} {parts : Parts} {n : PartName}
    (h : PartOk file e parts (some n)) :
    (Transfer.start e file.length (parts n)).buf.IsPrefix file := by
  unfold Transfer.start
  dsimp only
  cases hr : e.reads with
  | false => simp
  | true =>
    cases hp : parts n with
    | none => simp
    | some old =>
      simp only [if_true, Option.getD_some]
      split
      · next hlt => exact h n old rfl hp hr hlt
      · exact List.nil_prefix

theorem httpGetChunked_from {file : Bytes} {e : Download} {size : Int} {name : Option PartName}
    {parts : Parts} (he : e.From file) (hs : (file.length : Int) = size)
    (hp : PartOk file e parts name) {got : Bytes}
    (hg : (httpGetChunked e size name parts).1 = some got) : got = file := by
  have hnat : size.toNat = file.length := by omega
  unfold httpGetChunked at hg
  rw [hnat] at hg
  split at hg
  · cases hg
  · cases name with
    | none => exact chunkLoop_from he List.nil_prefix hg
    | some n => exact chunkLoop_from he (Transfer.start_buf hp) hg

/-- A download that nothing disturbs ends, and brings the file if the file of
the earlier attempts is in order. -/
theorem httpGetChunked_serves {file : Bytes} {e : Download} {size : Int}
    (name : Option PartName) (parts : Parts) (he : e.Serves file)
    (hs : (file.length : Int) = size) (h0 : 0 < size) (hmax : size ≤ dlSizeMax) :
    ∃ got, (httpGetChunked e size name parts).1 = some got ∧
      (PartOk file e parts name → got = file) := by
  have hnat : size.toNat = file.length := by omega
  have hsize : ¬ (size ≤ 0 ∨ dlSizeMax < size) := by omega
  have hleft : file.length ≤ dlAttemptsMax * dlChunkMax := by
    simp only [dlSizeMax, dlAttemptsMax, dlChunkMax] at hmax ⊢
    omega
  unfold httpGetChunked
  rw [if_neg hsize, hnat]
  cases name with
  | none =>
    refine ⟨file, ?_, fun _ => rfl⟩
    have hrun : (chunkLoop e file.length dlAttemptsMax
        { buf := [], file := none, isOpen := false }).1 = _ :=
      chunkLoop_serves he rfl rfl (by simpa using hleft)
    simpa using hrun
  | some n =>
    have hrun : (chunkLoop e file.length dlAttemptsMax
        (Transfer.start e file.length (parts n))).1 = _ :=
      chunkLoop_serves he rfl rfl (by omega)
    exact ⟨_, hrun, fun hp => List.prefix_iff_eq_append.mp (Transfer.start_buf hp)⟩

end Kervax.Agent
