-- JSON values as Python code uses them: what counts as true, reads by a key, comparisons
-- with a number, and the exception that each of them raises on a value of another shape.
-- Nothing here is about a program.
import Kervax.Dict
import Mathlib.Data.Rat.Defs
import Mathlib.Algebra.Order.Ring.Unbundled.Rat
import Mathlib.Data.List.Infix

namespace Values

/-! ## Values -/

/-- A `float`. -/
inductive FloatVal
  | fin (q : ℚ) | negZero | inf | negInf | nan
deriving DecidableEq

inductive Json
  | null
  | bool (b : Bool)
  | int (n : Int)
  | float (x : FloatVal)
  | str (s : String)
  | arr (l : List Json)
  | obj (d : List (String × Json))

/-- The classes of exceptions that are told apart. -/
inductive Exc
  | value (text : String)
  | type
  | key
  | attribute
  | other
deriving DecidableEq

def FloatVal.truthy : FloatVal → Bool
  | fin q => q ≠ 0
  | negZero => false
  | _ => true

/-- `bool(v)`. -/
def Json.truthy : Json → Bool
  | null => false
  | bool b => b
  | int n => n ≠ 0
  | float x => x.truthy
  | str s => s ≠ ""
  | arr l => !l.isEmpty
  | obj d => !d.isEmpty

def Json.isList : Json → Bool
  | arr _ => true
  | _ => false

def Json.isDict : Json → Bool
  | obj _ => true
  | _ => false

/-- The number of an `int`, a `float` or a `bool`. -/
def Json.number : Json → Option FloatVal
  | bool b => some (.fin (if b then 1 else 0))
  | int n => some (.fin n)
  | float x => some x
  | _ => none

/-- `isinstance(v, (int, float))`. -/
def Json.isNumber (v : Json) : Bool := v.number.isSome

/-! ## Comparisons -/

/-- The value of a number that is not infinite. -/
def FloatVal.rat : FloatVal → ℚ
  | fin q => q
  | _ => 0

def FloatVal.le : FloatVal → FloatVal → Bool
  | nan, _ => false
  | _, nan => false
  | negInf, _ => true
  | _, inf => true
  | inf, _ => false
  | _, negInf => false
  | x, y => x.rat ≤ y.rat

def FloatVal.lt (x y : FloatVal) : Bool := x.le y && !y.le x

/-- `a <= b` where one of the two is a number: a `TypeError` if the other is none. -/
def Json.le (a b : Json) : Except Exc Bool :=
  match a.number, b.number with
  | some x, some y => .ok (x.le y)
  | _, _ => .error .type

def Json.lt (a b : Json) : Except Exc Bool :=
  match a.number, b.number with
  | some x, some y => .ok (x.lt y)
  | _, _ => .error .type

/-! ## Reads -/

/-- `v or {}`. -/
def Json.orEmpty (v : Json) : Json := if v.truthy then v else .obj []

/-- `v.get(k)`. -/
def Json.get (v : Json) (k : String) : Except Exc Json :=
  match v with
  | obj d => .ok ((d.lookup k).getD .null)
  | _ => .error .attribute

/-- `v[k]`. -/
def Json.item (v : Json) (k : String) : Except Exc Json :=
  match v with
  | obj d => match d.lookup k with
    | some x => .ok x
    | none => .error .key
  | _ => .error .type

def Json.isStr (k : String) : Json → Bool
  | str s => s = k
  | _ => false

/-- `k in v`. -/
def Json.contains (v : Json) (k : String) : Except Exc Bool :=
  match v with
  | obj d => .ok (d.lookup k).isSome
  | arr l => .ok (l.any (isStr k))
  | str s => .ok (decide (k.toList <:+: s.toList))
  | _ => .error .type

/-- `v in {...}` for a set of strings: a list or a dictionary has no hash. -/
def Json.inSet (v : Json) (l : List String) : Except Exc Bool :=
  match v with
  | str s => .ok (decide (s ∈ l))
  | arr _ => .error .type
  | obj _ => .error .type
  | _ => .ok false

/-- `raise ValueError(text)` unless the condition holds. -/
def need (c : Bool) (text : String) : Except Exc Unit := if c then .ok () else .error (.value text)

/-- The entries of a dictionary; of anything else, none. -/
def Json.entries : Json → List (String × Json)
  | obj d => d
  | _ => []

/-- The elements of a list; of anything else, none. -/
def Json.elements : Json → List Json
  | arr l => l
  | _ => []

/-- A dictionary, or what `or {}` takes for an empty one. -/
def Json.OptDict (v : Json) : Prop := v.truthy = true → v.isDict = true

/-! ## What succeeds -/

section Success

variable {α β ε : Type}

theorem bind_eq_ok {x : Except ε α} {f : α → Except ε β} {b : β} :
    (x >>= f) = .ok b ↔ ∃ a, x = .ok a ∧ f a = .ok b := by
  cases x with
  | error e => exact ⟨nofun, fun ⟨_, h, _⟩ => nomatch h⟩
  | ok a =>
    constructor
    · intro h
      exact ⟨a, rfl, h⟩
    · rintro ⟨a', ha, h⟩
      cases ha
      exact h

theorem bind_eq_error {x : Except ε α} {f : α → Except ε β} {e : ε} :
    (x >>= f) = .error e ↔ x = .error e ∨ ∃ a, x = .ok a ∧ f a = .error e := by
  cases x with
  | error e' =>
    constructor
    · intro h
      cases h
      exact .inl rfl
    · rintro (h | ⟨_, h, _⟩)
      · cases h
        rfl
      · cases h
  | ok a =>
    constructor
    · intro h
      exact .inr ⟨a, rfl, h⟩
    · rintro (h | ⟨a', ha, h⟩)
      · cases h
      · cases ha
        exact h

@[simp] theorem need_eq_ok {c : Bool} {text : String} {u : Unit} :
    need c text = .ok u ↔ c = true := by
  unfold need
  cases c <;> simp

variable {v w : Json} {k : String} {l : List String} {b : Bool}

theorem get_eq_ok : v.get k = .ok w ↔ ∃ d, v = .obj d ∧ w = (d.lookup k).getD .null := by
  cases v <;> simp [Json.get, eq_comm]

theorem item_eq_ok : v.item k = .ok w ↔ ∃ d, v = .obj d ∧ d.lookup k = some w := by
  cases v with
  | obj d =>
    simp only [Json.item, Json.obj.injEq, exists_eq_left']
    cases d.lookup k <;> simp
  | _ => simp [Json.item]

theorem inSet_eq_true : v.inSet l = .ok true ↔ ∃ s ∈ l, v = .str s := by
  cases v <;> simp [Json.inSet]

theorem le_eq_ok : v.le w = .ok b ↔
    ∃ x y, v.number = some x ∧ w.number = some y ∧ x.le y = b := by
  unfold Json.le
  cases v.number <;> cases w.number <;> simp

theorem lt_eq_ok : v.lt w = .ok b ↔
    ∃ x y, v.number = some x ∧ w.number = some y ∧ x.lt y = b := by
  unfold Json.lt
  cases v.number <;> cases w.number <;> simp

theorem get_orEmpty_eq_ok :
    v.orEmpty.get k = .ok w ↔ v.OptDict ∧ w = (v.entries.lookup k).getD .null := by
  unfold Json.orEmpty Json.OptDict
  cases ht : v.truthy with
  | true => cases v <;> simp [Json.get, Json.isDict, Json.entries, eq_comm]
  | false =>
    have hentries : v.entries = [] := by
      cases v with
      | obj d => simpa [Json.truthy, Json.entries] using ht
      | _ => rfl
    rw [hentries, if_neg Bool.false_ne_true]
    exact ⟨fun h => ⟨nofun, (Except.ok.inj h).symm⟩, fun h => congrArg _ h.2.symm⟩

/-- A read of `v or {}` finds what counts as true only in a dictionary. -/
theorem get_orEmpty_truthy (hw : v.orEmpty.get k = .ok w) (ht : w.truthy = true) :
    ∃ d, v = .obj d ∧ d.lookup k = some w := by
  obtain ⟨-, rfl⟩ := get_orEmpty_eq_ok.mp hw
  cases v with
  | obj d =>
    refine ⟨d, rfl, ?_⟩
    unfold Json.entries at ht ⊢
    cases hl : d.lookup k with
    | none => simp [hl, Json.truthy] at ht
    | some x => rfl
  | _ => simp [Json.entries, Json.truthy] at ht

theorem truthy_of_lookup {d : List (String × Json)} (h : d.lookup k = some w) :
    (Json.obj d).truthy = true := by
  cases d with
  | nil => cases h
  | cons p d => rfl

theorem map_eq_ok {x : Except ε α} {f : α → β} {b : β} :
    x.map f = .ok b ↔ ∃ a, x = .ok a ∧ f a = b := by
  cases x <;> simp [Except.map]

theorem mem_of_mapM {f : α → Except ε β} {l : List α} {bs : List β} (h : l.mapM f = .ok bs) :
    (∀ a ∈ l, ∃ b, f a = .ok b) ∧ ∀ b, b ∈ bs ↔ ∃ a ∈ l, f a = .ok b := by
  induction l generalizing bs with
  | nil =>
    cases h
    simp
  | cons a l ih =>
    rw [List.mapM_cons, bind_eq_ok] at h
    obtain ⟨b, hb, h⟩ := h
    obtain ⟨bs', hbs', h⟩ := bind_eq_ok.mp h
    cases h
    obtain ⟨hall, hmem⟩ := ih hbs'
    refine ⟨?_, fun b' => ?_⟩
    · intro a' ha'
      rcases List.mem_cons.mp ha' with rfl | ha'
      · exact ⟨b, hb⟩
      · exact hall a' ha'
    · simp [hmem, hb, eq_comm]

theorem mapM_of_ok {f : α → Except ε β} {l : List α} (h : ∀ a ∈ l, ∃ b, f a = .ok b) :
    ∃ bs, l.mapM f = .ok bs := by
  induction l with
  | nil => exact ⟨[], rfl⟩
  | cons a l ih =>
    obtain ⟨b, hb⟩ := h a List.mem_cons_self
    obtain ⟨bs, hbs⟩ := ih fun a' ha' => h a' (List.mem_cons_of_mem _ ha')
    refine ⟨b :: bs, ?_⟩
    rw [List.mapM_cons, hb, hbs]
    rfl

end Success

/-! ## What is raised -/

/-- Whatever is raised meets `P`. -/
def Only {ε α : Type} (P : ε → Prop) (x : Except ε α) : Prop := ∀ e, x = .error e → P e

section Raised

variable {α β ε : Type} {P : ε → Prop}

theorem only_ok (a : α) : Only P (.ok a) := nofun

theorem only_error {e : ε} (h : P e) : Only P (.error e : Except ε α) := by
  intro e' he
  cases he
  exact h

theorem only_bind {x : Except ε α} {f : α → Except ε β} (hx : Only P x)
    (hf : ∀ a, x = .ok a → Only P (f a)) : Only P (x >>= f) := by
  cases x with
  | error e => exact only_error (hx e rfl)
  | ok a => exact hf a rfl

theorem only_map {x : Except ε α} {f : α → β} (hx : Only P x) : Only P (x.map f) := by
  cases x with
  | error e => exact only_error (hx e rfl)
  | ok a => exact only_ok _

theorem only_mapM {f : β → Except ε α} {l : List β} (hf : ∀ b ∈ l, Only P (f b)) :
    Only P (l.mapM f) := by
  induction l with
  | nil => exact only_ok []
  | cons b l ih =>
    rw [List.mapM_cons]
    apply only_bind (hf b List.mem_cons_self)
    intro a _
    apply only_bind (ih fun b' hb' => hf b' (List.mem_cons_of_mem _ hb'))
    exact fun as _ => only_ok _

theorem only_foldlM {f : α → β → Except ε α} {l : List β} {a : α}
    (hf : ∀ a, ∀ b ∈ l, Only P (f a b)) : Only P (l.foldlM f a) := by
  induction l generalizing a with
  | nil => exact only_ok a
  | cons b l ih =>
    rw [List.foldlM_cons]
    apply only_bind (hf a b List.mem_cons_self)
    exact fun a' _ => ih fun a'' b' hb' => hf a'' b' (List.mem_cons_of_mem _ hb')

theorem only_ite {c : Prop} [Decidable c] {x y : Except ε α} (hx : c → Only P x)
    (hy : ¬ c → Only P y) : Only P (if c then x else y) := by
  split
  next h => exact hx h
  next h => exact hy h

/-- Not an exception of another class. -/
def Known (e : Exc) : Prop := e ≠ .other

instance : DecidablePred Known := fun e => inferInstanceAs (Decidable (e ≠ .other))

theorem known_need (c : Bool) (text : String) : Only Known (need c text) :=
  only_ite (fun _ => only_ok ()) fun _ => only_error nofun

theorem known_get (v : Json) (k : String) : Only Known (v.get k) := by
  cases v with
  | obj d => exact only_ok _
  | _ => exact only_error nofun

theorem known_item (v : Json) (k : String) : Only Known (v.item k) := by
  cases v with
  | obj d =>
    unfold Json.item
    dsimp only
    cases d.lookup k with
    | none => exact only_error nofun
    | some x => exact only_ok x
  | _ => exact only_error nofun

theorem known_contains (v : Json) (k : String) : Only Known (v.contains k) := by
  cases v with
  | obj d => exact only_ok _
  | arr l => exact only_ok _
  | str s => exact only_ok _
  | _ => exact only_error nofun

theorem known_inSet (v : Json) (l : List String) : Only Known (v.inSet l) := by
  cases v with
  | arr _ => exact only_error nofun
  | obj _ => exact only_error nofun
  | _ => exact only_ok _

theorem known_le (v w : Json) : Only Known (v.le w) := by
  unfold Json.le
  split
  next => exact only_ok _
  next => exact only_error nofun

theorem known_lt (v w : Json) : Only Known (v.lt w) := by
  unfold Json.lt
  split
  next => exact only_ok _
  next => exact only_error nofun

end Raised

end Values
