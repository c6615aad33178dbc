-- Downloads that are resumed (`httpGetChunked` of `main.go`): what the panel is asked for, what
-- stands in the file beside the binary meanwhile, and when that is no beginning of the download.
import Kervax.Downloads
import Mathlib.Data.List.Chain

namespace Kervax.Agent

/-! ## Requests -/

/-- The states of the loop in which it sends a request, in order. -/
def asked (e : Download) (size : Nat) : Nat → Transfer → List Transfer
  | 0, _ => []
  | left + 1, s =>
    if size ≤ s.buf.length ∨ e.late s.attempts = true then []
    else
      s :: match turn e size s with
        | .inl _ => []
        | .inr t => asked e size left t

/-- What the loop of a download starts from. -/
def begun (e : Download) (size : Nat) (name : Option PartName) (parts : Parts) : Transfer :=
  match name with
  | none => { buf := [], file := none, isOpen := false }
  | some name => Transfer.start e size (parts name)

/-- The states of `httpGetChunked` in which it sends a request. -/
def requests (e : Download) (size : Int) (name : Option PartName) (parts : Parts) :
    List Transfer :=
  if size ≤ 0 ∨ dlSizeMax < size then []
  else asked e size.toNat dlAttemptsMax (begun e size.toNat name parts)

theorem asked_length (e : Download) (size left : Nat) (s : Transfer) :
    (asked e size left s).length ≤ left := by
  induction left generalizing s with
  | zero => exact le_refl 0
  | succ left ih =>
    unfold asked
    split
    · exact Nat.zero_le _
    · rw [List.length_cons]
      split
      · exact Nat.succ_le_succ (Nat.zero_le _)
      · exact Nat.succ_le_succ (ih _)

/-- What every turn keeps holds at every request, which is sent for what is missing. -/
theorem asked_keeps {e : Download} {size : Nat} {P : Transfer → Prop}
    (hP : ∀ s t, P s → s.buf.length < size → turn e size s = .inr t → P t) (left : Nat)
    {s : Transfer} (hs : P s) : ∀ t ∈ asked e size left s, P t ∧ t.buf.length < size := by
  induction left generalizing s with
  | zero => exact fun t ht => (by cases ht)
  | succ left ih =>
    unfold asked
    split
    · exact fun t ht => (by cases ht)
    · next h =>
      have hlen : s.buf.length < size := not_le.mp (not_or.mp h).1
      refine List.forall_mem_cons.mpr ⟨⟨hs, hlen⟩, ?_⟩
      split
      · exact fun t ht => (by cases ht)
      · next t ht => exact ih (hP s t hs hlen ht)

/-- What every turn does holds between a request and the next one. -/
theorem asked_chain {e : Download} {size : Nat} {R : Transfer → Transfer → Prop}
    (hR : ∀ s t, turn e size s = .inr t → R s t) (left : Nat) (s : Transfer) :
    (asked e size left s).IsChain R ∧ ∀ t ∈ (asked e size left s).head?, t = s := by
  induction left generalizing s with
  | zero => exact ⟨List.isChain_nil, fun t ht => (by cases ht)⟩
  | succ left ih =>
    unfold asked
    split
    · exact ⟨List.isChain_nil, fun t ht => (by cases ht)⟩
    · refine ⟨?_, fun t ht => (Option.some.inj ht).symm⟩
      split
      · exact List.isChain_singleton _
      · next t ht =>
        obtain ⟨hchain, hhead⟩ := ih t
        refine List.isChain_cons.mpr ⟨fun u hu => ?_, hchain⟩
        rw [hhead u hu]
        exact hR s t ht

/-! ## The buffer and the file -/

theorem Transfer.take_grows (s : Transfer) (b : Bytes) (wrote : Option Nat) :
    s.file.getD [] <+: (s.take b wrote).file.getD [] := by
  unfold Transfer.take
  dsimp only
  split
  · split
    · exact List.prefix_append ..
    · exact List.prefix_append ..
  · exact List.prefix_refl _

/-- The buffer and the file are beginnings of the download, and the same one while the file is
open. -/
structure Sound (file : Bytes) (s : Transfer) : Prop where
  buf : s.buf <+: file
  disk : ∀ f, s.file = some f → f <+: file
  same : s.isOpen = true → s.file = some s.buf
  chunk : dlChunkMin ≤ s.chunk
  ceiling : dlChunkMin ≤ s.ceiling

theorem Sound.take {file : Bytes} {s : Transfer} (h : Sound file s) {b : Bytes}
    (hb : s.buf ++ b <+: file) (wrote : Option Nat) :
    (∀ f, (s.take b wrote).file = some f → f <+: file) ∧
      ((s.take b wrote).isOpen = true → (s.take b wrote).file = some (s.buf ++ b)) := by
  unfold Transfer.take
  dsimp only
  split
  · next hopen =>
    rw [h.same hopen.2, Option.getD_some]
    cases wrote with
    | none => exact ⟨fun f hf => Option.some.inj hf ▸ hb, fun _ => rfl⟩
    | some n =>
      refine ⟨fun f hf => ?_, fun hopen => by cases hopen⟩
      rw [← Option.some.inj hf]
      exact ((List.prefix_append_right_inj _).mpr (List.take_prefix n b)).trans hb
  · next hclosed =>
    refine ⟨h.disk, fun hopen => ?_⟩
    obtain rfl : b = [] := by
      by_contra hne
      exact hclosed ⟨hne, hopen⟩
    rw [List.append_nil]
    exact h.same hopen

theorem Sound.turn {file : Bytes} {e : Download} (he : e.From file) {s t : Transfer}
    (h : Sound file s) (ht : turn e file.length s = .inr t) : Sound file t := by
  have hturn := turn_goes_on ht
  have hbuf : s.buf ++ (s.piece e file.length).bytes <+: file :=
    prefix_append_drop h.buf (fetchRange_from (he.range ..))
  obtain ⟨hdisk, hsame⟩ := h.take hbuf (e.writes s.attempts)
  have hchunk := h.chunk
  have hceiling := h.ceiling
  constructor
  case buf => rw [hturn.buf]; exact hbuf
  case disk => rw [hturn.file]; exact hdisk
  case same => rw [hturn.isOpen, hturn.file, hturn.buf]; exact hsame
  case chunk =>
    rcases hturn.chunk with hc | hc | ⟨-, hc⟩ <;> omega
  case ceiling =>
    rcases hturn.ceiling with hc | hc <;> omega

/-! ## What a download starts from -/

/-- What lies on the disk before. -/
def partOf (name : Option PartName) (parts : Parts) : Option Bytes := name.bind parts

/-- The loop begins with what the file holds, or with an empty file, or it does not write: there
is nothing to download, the file has no name, is not opened or is empty; or it is read, and a file
that is too long is removed. -/
def Together (file : Bytes) (reads removes opens : Bool) (name : Option PartName)
    (parts : Parts) : Prop :=
  file = [] ∨ dlSizeMax < file.length ∨ name = none ∨ opens = false ∨
    (partOf name parts).getD [] = [] ∨
    (reads = true ∧ (((partOf name parts).getD []).length < file.length ∨ removes = true))

theorem start_disk {file : Bytes} {old : Option Bytes} (hold : ∀ f, old = some f → f <+: file)
    (e : Download) : ∀ f, (Transfer.start e file.length old).file = some f → f <+: file := by
  have hfirst : ∀ b : Prop, [Decidable b] → ∀ f, (if b then none else old) = some f →
      f <+: file := by
    intro b _ f hf
    split at hf
    · cases hf
    · exact hold f hf
  have hopened : ∀ g : Option Bytes, (∀ f, g = some f → f <+: file) → g.getD [] <+: file := by
    intro g hg
    cases g with
    | none => exact List.nil_prefix
    | some f => exact hg f rfl
  intro f hf
  change (if e.opens = true then some (Option.getD _ []) else _) = some f at hf
  split at hf
  · rw [← Option.some.inj hf]
    exact hopened _ (hfirst _)
  · exact hfirst _ f hf

theorem start_same {e : Download} {size : Nat} {old : Option Bytes} (hsize : 0 < size)
    (h : e.opens = false ∨ old.getD [] = [] ∨
      (e.reads = true ∧ ((old.getD []).length < size ∨ e.removes = true)))
    (hopen : (Transfer.start e size old).isOpen = true) :
    (Transfer.start e size old).file = some (Transfer.start e size old).buf := by
  have hopen : e.opens = true := hopen
  unfold Transfer.start
  dsimp only
  rw [if_pos hopen]
  congr 1
  rcases h with h | h | ⟨hreads, h⟩
  · rw [hopen] at h
    cases h
  · -- Whether it was removed or not, the file is empty.
    have hnil : (if e.reads = true then old.getD [] else []) = [] := by rw [h, ite_self]
    rw [hnil, if_neg (fun hle => absurd hle.1 (by simp; omega)), h, ite_self]
  · rw [if_pos hreads]
    by_cases hlt : (old.getD []).length < size
    · rw [if_pos hlt, if_neg (fun hle => absurd hle.1 (by omega))]
    · have hremoves : e.removes = true := h.resolve_left hlt
      rw [if_neg hlt, if_pos ⟨not_lt.mp hlt, hremoves⟩]
      rfl

theorem begun_sound {file : Bytes} {e : Download} {name : Option PartName} {parts : Parts}
    (hpart : ∀ f, partOf name parts = some f → f <+: file) (hne : file ≠ [])
    (hmax : ¬ dlSizeMax < file.length)
    (h : Together file e.reads e.removes e.opens name parts) :
    Sound file (begun e file.length name parts) := by
  cases name with
  | none =>
    exact ⟨List.nil_prefix, fun f hf => (by cases hf), fun ho => (by cases ho),
      Nat.le_of_ble_eq_true rfl, Nat.le_of_ble_eq_true rfl⟩
  | some n =>
    refine ⟨?_, start_disk hpart e, start_same (List.length_pos_iff.mpr hne) ?_,
      Nat.le_of_ble_eq_true rfl, Nat.le_of_ble_eq_true rfl⟩
    · exact Transfer.start_buf fun n' old hn hp _ _ => hpart old (by rw [hn]; exact hp)
    · rcases h with h | h | h | h
      · exact absurd h hne
      · exact absurd h hmax
      · cases h
      · exact h

/-! ## The download as a whole -/

/-- What a call gives, what it asks for, and what it leaves on the disk. -/
structure CallRight (file : Bytes) (e : Download) (name : Option PartName) (parts : Parts) :
    Prop where
  result : ∀ got, (httpGetChunked e file.length name parts).1 = some got → got = file
  part : ∀ f, partOf name (httpGetChunked e file.length name parts).2 = some f → f <+: file
  /-- The process may also end before the call does. -/
  meanwhile : ∀ s ∈ requests e file.length name parts,
    s.buf <+: file ∧ ∀ f, s.file = some f → f <+: file
  grows : (requests e file.length name parts).IsChain fun s t =>
    s.buf <+: t.buf ∧ s.file.getD [] <+: t.file.getD []
  inside : ∀ s ∈ requests e file.length name parts,
    s.buf.length ≤ s.last file.length ∧ s.last file.length < file.length
  few : (requests e file.length name parts).length ≤ dlAttemptsMax

theorem httpGetChunked_begun (e : Download) {size : Int} (name : Option PartName) (parts : Parts)
    (h : ¬ (size ≤ 0 ∨ dlSizeMax < size)) :
    (httpGetChunked e size name parts).1 =
        (chunkLoop e size.toNat dlAttemptsMax (begun e size.toNat name parts)).1 ∧
      ∀ f, partOf name (httpGetChunked e size name parts).2 = some f →
        (chunkLoop e size.toNat dlAttemptsMax (begun e size.toNat name parts)).2 = some f := by
  unfold httpGetChunked
  rw [if_neg h]
  cases name with
  | none => exact ⟨rfl, fun f hf => (by cases hf)⟩
  | some n =>
    refine ⟨rfl, fun f hf => ?_⟩
    change Function.update parts n _ n = some f at hf
    rw [Function.update_self] at hf
    exact hf

theorem call_right {file : Bytes} {e : Download} (he : e.From file) {name : Option PartName}
    {parts : Parts} (hpart : ∀ f, partOf name parts = some f → f <+: file)
    (h : Together file e.reads e.removes e.opens name parts) : CallRight file e name parts := by
  by_cases hsize : (file.length : Int) ≤ 0 ∨ dlSizeMax < file.length
  · have hcall : httpGetChunked e file.length name parts = (none, parts) := if_pos hsize
    have hnone : requests e file.length name parts = [] := if_pos hsize
    constructor
    · rw [hcall]
      exact fun got hgot => (by cases hgot)
    · rw [hcall]
      exact hpart
    all_goals rw [hnone]
    · exact fun s hs => (by cases hs)
    · exact List.isChain_nil
    · exact fun s hs => (by cases hs)
    · exact Nat.zero_le _
  have hne : file ≠ [] := by
    rintro rfl
    exact hsize (.inl (le_refl _))
  have hsound := begun_sound hpart hne (fun hmax => hsize (.inr hmax)) h
  have hkeeps : ∀ s t, Sound file s → s.buf.length < file.length →
      turn e file.length s = .inr t → Sound file t := fun s t hs _ ht => hs.turn he ht
  have hrequests : requests e file.length name parts =
      asked e file.length dlAttemptsMax (begun e file.length name parts) := if_neg hsize
  have hasked := asked_keeps hkeeps dlAttemptsMax hsound
  obtain ⟨hresult, hdisk⟩ := httpGetChunked_begun e name parts hsize
  rw [Int.toNat_natCast] at hresult hdisk
  constructor
  case result =>
    intro got hgot
    rw [hresult] at hgot
    exact chunkLoop_from he hsound.buf hgot
  case part =>
    intro f hf
    have hf := hdisk f hf
    obtain ⟨t, ht, hend⟩ := chunkLoop_keeps hkeeps dlAttemptsMax hsound
    have hend : (chunkLoop e file.length dlAttemptsMax
        (begun e file.length name parts)).2 = t.file := by
      rcases hend with ⟨hr, -⟩ | hr | hr <;> rw [hr]
    exact ht.disk f (hend.symm.trans hf)
  case meanwhile =>
    rw [hrequests]
    exact fun s hs => ⟨(hasked s hs).1.buf, (hasked s hs).1.disk⟩
  case grows =>
    rw [hrequests]
    refine (asked_chain (fun s t ht => ?_) _ _).1
    have hturn := turn_goes_on ht
    rw [hturn.buf, hturn.file]
    exact ⟨List.prefix_append .., s.take_grows ..⟩
  case inside =>
    rw [hrequests]
    intro s hs
    obtain ⟨hs, hlen⟩ := hasked s hs
    have hchunk := hs.chunk
    have hmin : 0 < dlChunkMin := by decide
    unfold Transfer.last
    omega
  case few =>
    rw [hrequests]
    exact asked_length ..

/-- What an undisturbed download writes stands behind what lay in a file that was not read. -/
theorem serves_behind {file old : Bytes} {e : Download} (he : e.Serves file)
    (hwrites : ∀ n, e.writes n = none) (hwhole : e.whole = .failed)
    (hmax : ¬ dlSizeMax < file.length) {s : Transfer} (hbuf : s.buf = [])
    (hchunk : s.chunk = dlChunkMax) (hceiling : s.ceiling = dlChunkMax)
    (hopen : s.isOpen = true) (hold : s.file = some old) :
    (chunkLoop e file.length dlAttemptsMax s).2 = some (old ++ file) := by
  have hleft : file.length ≤ s.buf.length + dlAttemptsMax * dlChunkMax := by
    simp only [dlSizeMax, dlAttemptsMax, dlChunkMax] at hmax ⊢
    omega
  have hgot := chunkLoop_serves he hchunk hceiling hleft
  rw [hbuf, List.nil_append, List.length_nil, List.drop_zero] at hgot
  have hkeeps : ∀ s t : Transfer, (s.isOpen = true ∧ s.file = some (old ++ s.buf)) →
      s.buf.length < file.length → turn e file.length s = .inr t →
      t.isOpen = true ∧ t.file = some (old ++ t.buf) := by
    rintro s t ⟨hopen, hfile⟩ - ht
    have hturn := turn_goes_on ht
    rw [hturn.isOpen, hturn.file, hturn.buf, hwrites]
    unfold Transfer.take
    dsimp only
    split
    · rw [hfile, Option.getD_some, List.append_assoc]
      exact ⟨hopen, rfl⟩
    · next hclosed =>
      have hnil : (s.piece e file.length).bytes = [] := by
        by_contra hne
        exact hclosed ⟨hne, hopen⟩
      rw [hnil, List.append_nil]
      exact ⟨hopen, hfile⟩
  have hstart : s.isOpen = true ∧ s.file = some (old ++ s.buf) := by
    rw [hbuf, List.append_nil]
    exact ⟨hopen, hold⟩
  obtain ⟨t, ⟨-, ht⟩, hend⟩ := chunkLoop_keeps hkeeps dlAttemptsMax hstart
  rcases hend with ⟨hr, -⟩ | hr | hr <;> rw [hr] at hgot ⊢
  · rw [ht, Option.some.inj hgot]
  · cases hgot
  · rw [hwhole] at hgot
    cases hgot
/-- A panel that answers every request, and these troubles with the file. -/
def undisturbed (file : Bytes) (reads removes opens : Bool) : Download where
  range := fun _ => served file
  reads := reads
  removes := removes
  opens := opens

theorem undisturbed_from (file : Bytes) (reads removes opens : Bool) :
    (undisturbed file reads removes opens).From file :=
  ⟨fun _ _ _ _ _ => List.take_prefix _ _, trivial⟩

theorem undisturbed_serves (file : Bytes) (reads removes opens : Bool) :
    (undisturbed file reads removes opens).Serves file :=
  ⟨fun _ _ _ => rfl, fun _ => rfl⟩

/-- A file that was not read, or is too long and could not be removed, stays while the buffer is
empty. -/
theorem start_apart {e : Download} {size : Nat} {old : Bytes} (hsize : 0 < size)
    (hopen : e.opens = true)
    (h : ¬ (e.reads = true ∧ (old.length < size ∨ e.removes = true))) :
    (Transfer.start e size (some old)).buf = [] ∧
      (Transfer.start e size (some old)).file = some old := by
  unfold Transfer.start
  dsimp only
  rw [if_pos hopen]
  by_cases hr : e.reads = true
  · have hlong : ¬ old.length < size := fun hlt => h ⟨hr, .inl hlt⟩
    have hkept : ¬ e.removes = true := fun hremoves => h ⟨hr, .inr hremoves⟩
    rw [if_pos hr, Option.getD_some, if_neg hlong, if_neg (fun h => hkept h.2)]
    exact ⟨rfl, rfl⟩
  · have hnil : ¬ size ≤ ([] : Bytes).length := by
      rw [List.length_nil]
      omega
    rw [if_neg hr, ite_self, if_neg (fun h => hnil h.1)]
    exact ⟨rfl, rfl⟩

/-- Whatever the panel answers from the file, a call is right; and only when what the loop begins
with stands in the file that it writes to. -/
theorem resumed_right (file : Bytes) (reads removes opens : Bool) (name : Option PartName)
    (parts : Parts) (hpart : ∀ f, partOf name parts = some f → f <+: file) :
    (∀ e : Download, e.From file → e.reads = reads → e.removes = removes → e.opens = opens →
        CallRight file e name parts) ↔
      Together file reads removes opens name parts := by
  constructor
  · intro h
    by_contra hapart
    unfold Together at hapart
    simp only [not_or] at hapart
    obtain ⟨hne, hmax, hname, hopens, hold, hreads⟩ := hapart
    obtain ⟨n, rfl⟩ := Option.ne_none_iff_exists'.mp hname
    obtain ⟨old, hp⟩ : ∃ old, parts n = some old := by
      refine Option.ne_none_iff_exists'.mp fun hp => hold ?_
      rw [show partOf (some n) parts = parts n from rfl, hp, Option.getD_none]
    rw [show partOf (some n) parts = parts n from rfl, hp, Option.getD_some] at hold hreads
    have hsize : 0 < file.length := List.length_pos_iff.mpr hne
    have hopen : opens = true := Bool.of_not_eq_false hopens
    have hright := h _ (undisturbed_from file reads removes opens) rfl rfl rfl
    obtain ⟨hbuf, hfile⟩ :=
      start_apart (e := undisturbed file reads removes opens) hsize hopen hreads
    have hdisk := serves_behind (undisturbed_serves file reads removes opens) (fun _ => rfl) rfl
      hmax hbuf rfl rfl hopen hfile
    have hafter : old ++ file <+: file := by
      apply hright.part
      unfold httpGetChunked
      rw [if_neg (by omega), Int.toNat_natCast]
      change Function.update parts n _ n = _
      rw [Function.update_self, hp]
      exact hdisk
    have hlen := hafter.length_le
    rw [List.length_append] at hlen
    exact hold (List.length_eq_zero_iff.mp (by omega))
  · rintro h e he rfl rfl rfl
    exact call_right he hpart h

theorem resumed_right_small :
    CallRight [1, 2, 3] (undisturbed [1, 2, 3] true true true) (some (['2'], 3))
      (fun _ => some [1]) := by
  refine (resumed_right [1, 2, 3] true true true (some (['2'], 3)) (fun _ => some [1]) ?_).mpr
    ?_ _ (undisturbed_from ..) rfl rfl rfl
  · intro f hf
    rw [← Option.some.inj hf]
    decide
  · exact .inr (.inr (.inr (.inr (.inr ⟨rfl, .inl (by decide)⟩))))

/-- The beginning that could not be read stays in the file, and the whole download behind it. -/
theorem unread_doubled :
    Download.From [1, 2, 3] (undisturbed [1, 2, 3] false true true) ∧
      ¬ CallRight [1, 2, 3] (undisturbed [1, 2, 3] false true true) (some (['2'], 3))
        (fun _ => some [1]) := by
  refine ⟨undisturbed_from .., fun h => ?_⟩
  have hpart : ([1, 1, 2, 3] : Bytes) <+: [1, 2, 3] := by
    apply h.part
    decide +kernel
  exact absurd hpart (by decide)

end Kervax.Agent
