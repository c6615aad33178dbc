-- Two-factor login of one user (`login`, `twofa_setup`, `twofa_enable`, `twofa_disable`): every
-- request reads the row in one step and writes it in another, so that the steps of other
-- requests may come between. A code that was taken is told by its secret and counter.
import Kervax.Totp
import Kervax.Runs

namespace Kervax.Totp

/-! ## The requests -/

/-- The columns of a user that the requests read and write. -/
structure Account where
  enabled : Bool := false
  secret : String := ""
  lastCounter : Nat := 0
deriving DecidableEq, Repr

/-- A login has given the right password. `setup` has drawn its secret. -/
inductive Request
  | login (otp : String)
  | setup (secret : String)
  | enable (otp : String)
  | disable (otp : String)
deriving DecidableEq, Repr

/-- A request between its two steps, with the row that it has read. -/
structure Pending where
  request : Request
  row : Account
deriving DecidableEq, Repr

/-- The row, the requests under way, and what has happened: the codes that were taken, the
code that two-factor login was switched on with, and the secrets that the row has held. -/
structure State where
  row : Account
  pending : Nat → Option Pending := fun _ => none
  accepted : List (String × Nat) := []
  opened : Option Nat := none
  held : List String := []

/-- A request reads the row, or decides at some time and writes. `locked` says that the
address may not try a code. -/
inductive Step
  | read (id : Nat) (request : Request)
  | write (id : Nat) (now : Nat) (locked : Bool)
deriving DecidableEq, Repr

/-- The code that a request takes. -/
def taken (row : Account) (otp : String) (now : Nat) : List (String × Nat) :=
  ((matchedCounter row.secret otp now).map (row.secret, ·)).toList

/-- The second step, from what the first one has read. An UPDATE writes the columns that the
request has set, and no others. -/
def finish (s : State) (p : Pending) (now : Nat) (locked : Bool) : State :=
  match p.request with
  | .login otp =>
    if p.row.enabled then
      match matchedCounter p.row.secret otp now with
      | none => s
      | some counter =>
        if counter ≤ p.row.lastCounter then s
        else
          { s with
            row := { s.row with lastCounter := counter }
            accepted := s.accepted ++ taken p.row otp now }
    else s
  | .setup secret =>
    if p.row.enabled then s
    else { s with row := { s.row with secret := secret }, held := s.held ++ [secret] }
  | .enable otp =>
    if p.row.enabled ∨ p.row.secret = "" then s
    else if verify p.row.secret otp now then
      { s with
        row := { s.row with enabled := true }
        accepted := s.accepted ++ taken p.row otp now
        opened := matchedCounter p.row.secret otp now }
    else s
  | .disable otp =>
    if p.row.enabled = false ∨ locked then s
    else if verify p.row.secret otp now then
      { s with
        row := { s.row with enabled := false, secret := "" }
        accepted := s.accepted ++ taken p.row otp now }
    else s

def next (s : State) : Step → State
  | .read id request =>
    { s with pending := fun i => if i = id then some ⟨request, s.row⟩ else s.pending i }
  | .write id now locked =>
    match s.pending id with
    | none => s
    | some p =>
      { finish s p now locked with pending := fun i => if i = id then none else s.pending i }

/-- No request is under way, and no code was taken yet. -/
def start (row : Account) : State := { row := row, held := [row.secret] }

/-! ## When a code works once -/

/-- The row still has the secret that the request has read, and is switched on or off as
it was. -/
def Unmoved (s : State) (p : Pending) : Prop :=
  s.row.enabled = p.row.enabled ∧ s.row.secret = p.row.secret

/-- A request that takes a code finds the row unmoved; a login or a `disable` finds the
counter of its code above the mark, and the code is not the one that switched two-factor
login on; and a new secret is new. -/
def Sound (s : State) : Step → Prop
  | .read _ _ => True
  | .write id now locked => ∀ p, s.pending id = some p →
    match p.request with
    | .login otp => p.row.enabled = true → ∀ c, matchedCounter p.row.secret otp now = some c →
        p.row.lastCounter < c → Unmoved s p ∧ s.row.lastCounter < c ∧ s.opened ≠ some c
    | .setup secret => p.row.enabled = false → secret ∉ s.held
    | .enable otp => p.row.enabled = false → ∀ c, matchedCounter p.row.secret otp now = some c →
        Unmoved s p
    | .disable otp => p.row.enabled = true → locked = false →
        ∀ c, matchedCounter p.row.secret otp now = some c →
          Unmoved s p ∧ s.row.lastCounter < c ∧ s.opened ≠ some c

/-- What the run keeps: no code was taken twice, those of the present secret are not above
the mark but for the one that switched it on, and none was taken of a secret that waits for
its first code. -/
structure Inv (s : State) : Prop where
  once : s.accepted.Nodup
  bound : ∀ c, (s.row.secret, c) ∈ s.accepted → s.row.secret ≠ "" →
    c ≤ s.row.lastCounter ∨ s.opened = some c
  waits : s.row.enabled = false → s.row.secret ≠ "" → ∀ c, (s.row.secret, c) ∉ s.accepted
  known : ∀ x ∈ s.accepted, x.1 ∈ s.held
  held : s.row.secret ≠ "" → s.row.secret ∈ s.held

theorem inv_start (row : Account) : Inv (start row) :=
  ⟨List.nodup_nil, by simp [start], by simp [start], by simp [start], by simp [start]⟩

/-- A code of some secret stands for a counter of it. -/
theorem secret_ne_of_matched {secret otp : String} {now c : Nat}
    (h : matchedCounter secret otp now = some c) : secret ≠ "" := by
  rintro rfl
  rw [matchedCounter_empty] at h
  cases h

theorem taken_eq {row : Account} {otp : String} {now c : Nat}
    (h : matchedCounter row.secret otp now = some c) : taken row otp now = [(row.secret, c)] := by
  simp [taken, h]

theorem nodup_snoc {l : List (String × Nat)} {x : String × Nat} (hl : l.Nodup) (hx : x ∉ l) :
    (l ++ [x]).Nodup :=
  List.nodup_append.mpr ⟨hl, List.nodup_singleton x, by
    rintro a ha b hb rfl
    exact hx (List.mem_singleton.mp hb ▸ ha)⟩

/-- A code above the mark that did not switch it on was not taken yet. -/
theorem Inv.fresh {s : State} (hs : Inv s) {c : Nat} (hne : s.row.secret ≠ "")
    (hmark : s.row.lastCounter < c) (hopened : s.opened ≠ some c) :
    (s.row.secret, c) ∉ s.accepted := by
  intro hmem
  rcases hs.bound c hmem hne with hle | heq
  · omega
  · exact hopened heq

/-! ## What each request keeps -/

/-- The reads and the ends of requests leave all this alone. -/
theorem Inv.pending {s : State} (hs : Inv s) (pending : Nat → Option Pending) :
    Inv { s with pending := pending } :=
  ⟨hs.once, hs.bound, hs.waits, hs.known, hs.held⟩

/-- A code of the present secret is of a secret that was held. -/
theorem Inv.known_snoc {s : State} (hs : Inv s) {c : Nat} (hne : s.row.secret ≠ "") :
    ∀ x ∈ s.accepted ++ [(s.row.secret, c)], x.1 ∈ s.held := by
  intro x hx
  rcases List.mem_append.mp hx with hmem | hmem
  · exact hs.known x hmem
  · rw [List.mem_singleton.mp hmem]
    exact hs.held hne

theorem Inv.login {s : State} (hs : Inv s) {c : Nat} (hon : s.row.enabled = true)
    (hne : s.row.secret ≠ "") (hmark : s.row.lastCounter < c) (hopened : s.opened ≠ some c) :
    Inv { s with
      row := { s.row with lastCounter := c }
      accepted := s.accepted ++ [(s.row.secret, c)] } where
  once := nodup_snoc hs.once (hs.fresh hne hmark hopened)
  bound c' hc' _ := by
    rcases List.mem_append.mp hc' with hmem | hmem
    · rcases hs.bound c' hmem hne with hle | heq
      · exact .inl (hle.trans hmark.le)
      · exact .inr heq
    · cases List.mem_singleton.mp hmem
      exact .inl le_rfl
  waits hoff := by
    rw [hon] at hoff
    cases hoff
  known := hs.known_snoc hne
  held := hs.held

theorem Inv.setup {s : State} (hs : Inv s) {secret : String} (hnew : secret ∉ s.held) :
    Inv { s with row := { s.row with secret := secret }, held := s.held ++ [secret] } where
  once := hs.once
  bound _ hc := absurd (hs.known _ hc) hnew
  waits _ _ _ hc := hnew (hs.known _ hc)
  known x hx := List.mem_append_left _ (hs.known x hx)
  held _ := List.mem_append_right _ (List.mem_singleton_self secret)

theorem Inv.enable {s : State} (hs : Inv s) {c : Nat} (hoff : s.row.enabled = false)
    (hne : s.row.secret ≠ "") :
    Inv { s with
      row := { s.row with enabled := true }
      accepted := s.accepted ++ [(s.row.secret, c)]
      opened := some c } where
  once := nodup_snoc hs.once (hs.waits hoff hne c)
  bound c' hc' _ := by
    rcases List.mem_append.mp hc' with hmem | hmem
    · exact absurd hmem (hs.waits hoff hne c')
    · cases List.mem_singleton.mp hmem
      exact .inr rfl
  waits hoff' := by cases hoff'
  known := hs.known_snoc hne
  held := hs.held

theorem Inv.disable {s : State} (hs : Inv s) {c : Nat} (hne : s.row.secret ≠ "")
    (hmark : s.row.lastCounter < c) (hopened : s.opened ≠ some c) :
    Inv { s with
      row := { s.row with enabled := false, secret := "" }
      accepted := s.accepted ++ [(s.row.secret, c)] } where
  once := nodup_snoc hs.once (hs.fresh hne hmark hopened)
  bound _ _ h := absurd rfl h
  waits _ h := absurd rfl h
  known := hs.known_snoc hne
  held h := absurd rfl h

/-- A code that `verify` takes stands for a counter. -/
theorem matched_of_verify {secret otp : String} {now : Nat} (h : verify secret otp now = true) :
    ∃ c, matchedCounter secret otp now = some c := by
  rw [verify_iff] at h
  exact Option.isSome_iff_exists.mp h

/-- What a sound request makes of the state. -/
inductive Finished (s : State) : State → Prop
  | same : Finished s s
  | login {c : Nat} : s.row.enabled = true → s.row.secret ≠ "" → s.row.lastCounter < c →
      s.opened ≠ some c → Finished s { s with
        row := { s.row with lastCounter := c }
        accepted := s.accepted ++ [(s.row.secret, c)] }
  | setup {secret : String} : secret ∉ s.held →
      Finished s { s with row := { s.row with secret := secret }, held := s.held ++ [secret] }
  | enable {c : Nat} : s.row.enabled = false → s.row.secret ≠ "" → Finished s { s with
      row := { s.row with enabled := true }
      accepted := s.accepted ++ [(s.row.secret, c)]
      opened := some c }
  | disable {c : Nat} : s.row.secret ≠ "" → s.row.lastCounter < c → s.opened ≠ some c →
      Finished s { s with
        row := { s.row with enabled := false, secret := "" }
        accepted := s.accepted ++ [(s.row.secret, c)] }

theorem finished {s : State} {id now : Nat} {locked : Bool} {p : Pending}
    (hp : s.pending id = some p) (hsound : Sound s (.write id now locked)) :
    Finished s (finish s p now locked) := by
  have hcond := hsound p hp
  unfold finish
  cases hreq : p.request with
  | login otp =>
    simp only [hreq] at hcond ⊢
    split
    · rename_i hon
      split
      · exact .same
      · rename_i c hc
        split
        · exact .same
        · rename_i hlt
          obtain ⟨⟨henabled, hsecret⟩, hmark, hopened⟩ := hcond hon c hc (not_le.mp hlt)
          have hne := secret_ne_of_matched hc
          rw [taken_eq hc, ← hsecret]
          exact .login (henabled.trans hon) (hsecret ▸ hne) hmark hopened
    · exact .same
  | setup secret =>
    simp only [hreq] at hcond ⊢
    split
    · exact .same
    · rename_i hoff
      exact .setup (hcond (by simpa using hoff))
  | enable otp =>
    simp only [hreq] at hcond ⊢
    split
    · exact .same
    · rename_i hgo
      simp only [not_or, Bool.not_eq_true] at hgo
      split
      · rename_i hv
        obtain ⟨c, hc⟩ := matched_of_verify hv
        obtain ⟨henabled, hsecret⟩ := hcond hgo.1 c hc
        rw [taken_eq hc, hc, ← hsecret]
        exact .enable (henabled.trans hgo.1) (hsecret ▸ hgo.2)
      · exact .same
  | disable otp =>
    simp only [hreq] at hcond ⊢
    split
    · exact .same
    · rename_i hgo
      simp only [not_or, Bool.not_eq_true, Bool.not_eq_false] at hgo
      split
      · rename_i hv
        obtain ⟨c, hc⟩ := matched_of_verify hv
        obtain ⟨⟨_, hsecret⟩, hmark, hopened⟩ := hcond hgo.1 hgo.2 c hc
        have hne := secret_ne_of_matched hc
        rw [taken_eq hc, ← hsecret]
        exact .disable (hsecret ▸ hne) hmark hopened
      · exact .same

theorem Finished.inv {s s' : State} (h : Finished s s') (hs : Inv s) : Inv s' := by
  cases h with
  | same => exact hs
  | login hon hne hmark hopened => exact hs.login hon hne hmark hopened
  | setup hnew => exact hs.setup hnew
  | enable hoff hne => exact hs.enable hoff hne
  | disable hne hmark hopened => exact hs.disable hne hmark hopened

/-- No request lowers the mark: a login writes a counter above it, and the others none. -/
theorem Finished.mark_le {s s' : State} (h : Finished s s') :
    s.row.lastCounter ≤ s'.row.lastCounter := by
  cases h with
  | login _ _ hmark _ => exact hmark.le
  | _ => exact le_rfl

/-! ## Runs -/

theorem inv_next {s : State} (hs : Inv s) {st : Step} (hsound : Sound s st) : Inv (next s st) := by
  cases st with
  | read id request => exact hs.pending _
  | write id now locked =>
    unfold next
    dsimp only
    split
    · exact hs
    · rename_i p hp
      exact ((finished hp hsound).inv hs).pending _

theorem mark_le_next {s : State} {st : Step} (hsound : Sound s st) :
    s.row.lastCounter ≤ (next s st).row.lastCounter := by
  cases st with
  | read id request => exact le_rfl
  | write id now locked =>
    unfold next
    dsimp only
    split
    · exact le_rfl
    · rename_i p hp
      exact (finished hp hsound).mark_le

/-- The code of counter 1, and that of counter 2, of the test vectors. -/
theorem matched_first : matchedCounter secretKey "287082" 59 = some 1 := by
  have hcode : digitsOf "287082" = some "287082".toList := by decide +kernel
  have hother : "755224".toList ≠ "287082".toList := by decide +kernel
  obtain ⟨hzero, hone, -⟩ := hotp_vectors
  rw [matchedCounter_of_digits (by decide) (by decide) hcode, List.find?_eq_some_iff_append]
  refine ⟨decide_eq_true hone, [0], [2], rfl, fun counter hcounter => ?_⟩
  rw [List.mem_singleton.mp hcounter, Bool.not_eq_true', decide_eq_false_iff_not, hzero]
  exact fun h => hother (Option.some.inj h)

theorem matched_second : matchedCounter secretKey "359152" 59 = some 2 := by
  have hcode : digitsOf "359152" = some "359152".toList := by decide +kernel
  have hother : "755224".toList ≠ "359152".toList ∧ "287082".toList ≠ "359152".toList := by
    decide +kernel
  obtain ⟨hzero, hone, htwo⟩ := hotp_vectors
  rw [matchedCounter_of_digits (by decide) (by decide) hcode, List.find?_eq_some_iff_append]
  refine ⟨decide_eq_true htwo, [0, 1], [], rfl, fun counter hcounter => ?_⟩
  rw [Bool.not_eq_true', decide_eq_false_iff_not]
  rcases List.mem_pair.mp hcounter with rfl | rfl
  · rw [hzero]
    exact fun h => hother.1 (Option.some.inj h)
  · rw [hone]
    exact fun h => hother.2 (Option.some.inj h)

/-- No code is taken twice, and the mark never goes down while the secret stays. -/
theorem a_code_works_once (row : Account) (steps : List Step)
    (h : Runs.Along next Sound (start row) steps) :
    (Runs.run next (start row) steps).accepted.Nodup ∧
      Runs.Along next (fun s st => s.row.secret = (next s st).row.secret →
        s.row.lastCounter ≤ (next s st).row.lastCounter) (start row) steps := by
  refine ⟨(Runs.inv_run (inv_start row) (fun _ _ hs hc => inv_next hs hc) h).once,
    Runs.Along.mono ?_ h⟩
  intro s st hsound _
  exact mark_le_next hsound

def enabledRow : Account := { enabled := true, secret := secretKey }

/-- Two logins, one after the other, with the codes of the counters 1 and 2. -/
def twoLogins : List Step :=
  [.read 1 (.login "287082"), .write 1 59 false, .read 2 (.login "359152"), .write 2 59 false]

theorem two_logins_take_their_codes :
    (Runs.run next (start enabledRow) twoLogins).accepted.Nodup ∧
      Runs.Along next (fun s st => s.row.secret = (next s st).row.secret →
        s.row.lastCounter ≤ (next s st).row.lastCounter) (start enabledRow) twoLogins := by
  have hfirst : next (next (start enabledRow) (.read 1 (.login "287082"))) (.write 1 59 false) =
      { start enabledRow with
        row := { enabledRow with lastCounter := 1 }
        accepted := [(secretKey, 1)] } := by
    simp [start, next, finish, taken, enabledRow, matched_first]
    funext id
    by_cases h : id = 1 <;> simp [h]
  apply a_code_works_once
  refine ⟨trivial, ?_, trivial, ?_, trivial⟩
  · rintro p ⟨⟩ _ c _ hlt
    exact ⟨⟨rfl, rfl⟩, hlt, nofun⟩
  · rw [hfirst]
    rintro p ⟨⟩ _ c _ hlt
    exact ⟨⟨rfl, rfl⟩, hlt, nofun⟩

/-- Two logins with one code that both read the row before one of them writes. -/
def overlap (first second : String) : List Step :=
  [.read 1 (.login first), .read 2 (.login second), .write 1 59 false, .write 2 59 false]

/-- The code that switches two-factor login on, and then a login with it. -/
def enableAndLogin : List Step :=
  [.read 1 (.enable "287082"), .write 1 59 false, .read 2 (.login "287082"), .write 2 59 false]

/-- Logins that both read the row before one of them writes both take their codes, and the
mark is that of the second. -/
theorem overlap_run {secret first second : String} {c d : Nat}
    (hfirst : matchedCounter secret first 59 = some c)
    (hsecond : matchedCounter secret second 59 = some d) (hc : 0 < c) (hd : 0 < d) :
    (Runs.run next (start { enabled := true, secret }) ((overlap first second).take 3)).row =
        { enabled := true, secret, lastCounter := c } ∧
      (Runs.run next (start { enabled := true, secret }) (overlap first second)).row =
        { enabled := true, secret, lastCounter := d } ∧
      (Runs.run next (start { enabled := true, secret }) (overlap first second)).accepted =
        [(secret, c), (secret, d)] := by
  have hc' : c ≠ 0 := Nat.pos_iff_ne_zero.mp hc
  have hd' : d ≠ 0 := Nat.pos_iff_ne_zero.mp hd
  refine ⟨?_, ?_, ?_⟩
  · simp [overlap, start, next, finish, hfirst, hc']
  · simp [overlap, start, next, finish, hfirst, hsecond, hc', hd']
  · simp [overlap, start, next, finish, taken, hfirst, hsecond, hc', hd']

/-- The code that switches two-factor login on is taken again by a login. -/
theorem enable_and_login_run {secret code : String} {c : Nat}
    (hcode : matchedCounter secret code 59 = some c) (hc : 0 < c) :
    (Runs.run next (start { secret }) [.read 1 (.enable code), .write 1 59 false,
      .read 2 (.login code), .write 2 59 false]).accepted = [(secret, c), (secret, c)] := by
  have hsecret := secret_ne_of_matched hcode
  have hverify : verify secret code 59 = true := by
    rw [verify_iff, hcode]
    rfl
  have hc' : c ≠ 0 := Nat.pos_iff_ne_zero.mp hc
  simp [start, next, finish, taken, hcode, hverify, hsecret, hc']

/-- One code is taken by two logins, or by `enable` and a login, and the mark goes down from
2 to 1 with the secret as it was. -/
theorem a_code_works_twice :
    (Runs.run next (start enabledRow) (overlap "287082" "287082")).accepted =
        [(secretKey, 1), (secretKey, 1)] ∧
      (Runs.run next (start { secret := secretKey }) enableAndLogin).accepted =
        [(secretKey, 1), (secretKey, 1)] ∧
      (Runs.run next (start enabledRow) ((overlap "359152" "287082").take 3)).row.lastCounter = 2 ∧
      (Runs.run next (start enabledRow) (overlap "359152" "287082")).row =
        { enabledRow with lastCounter := 1 } := by
  obtain ⟨hmark, hrow, -⟩ := overlap_run matched_second matched_first (by decide) (by decide)
  have hmark : (Runs.run next (start enabledRow) ((overlap "359152" "287082").take 3)).row =
      { enabledRow with lastCounter := 2 } := hmark
  refine ⟨(overlap_run matched_first matched_first (by decide) (by decide)).2.2,
    enable_and_login_run matched_first (by decide), ?_, hrow⟩
  rw [hmark]

end Kervax.Totp
