-- A list that several holders add to and take their own entries from again, while others
-- edit it too: what the holders have put in can be told from the rest, and the rest is as if
-- no holder had ever been there. Nothing here is about a program.
import Mathlib.Data.List.Basic

namespace Holdings

variable {ρ α κ : Type} (key : α → κ)

/-! ## What one holder can do -/

/-- A holder adds entries with new keys, takes out the entries with its keys, or does neither.
The second and the fourth list are the keys that it holds, before and after. -/
inductive Move [DecidableEq κ] : List α → List κ → List α → List κ → Prop
  | stay (l : List α) (g : List κ) : Move l g l g
  | take (l new : List α) (h : ∀ a ∈ new, key a ∉ l.map key) : Move l [] (l ++ new) (new.map key)
  | give (l : List α) (g : List κ) : Move l g (l.filter fun a => key a ∉ g) []

/-! ## Held keys and the other ones -/

/-- Some holder has the key. -/
def Held (holds : ρ → List κ) (k : κ) : Prop := ∃ r, k ∈ holds r

open Classical in
/-- The entries that no holder has put there. -/
noncomputable def own (holds : ρ → List κ) (l : List α) : List α :=
  l.filter fun a => ¬ Held holds (key a)

variable {key} {holds holds' : ρ → List κ} {l l' : List α}

theorem own_nil (h : ∀ r, holds r = []) : own key holds l = l := by
  classical
  unfold own
  apply List.filter_eq_self.mpr
  intro a _
  simp [Held, h]

/-- Entries whose keys are held do not count. -/
theorem own_append (hnew : ∀ a ∈ l', Held holds (key a)) :
    own key holds (l ++ l') = own key holds l := by
  classical
  unfold own
  rw [List.filter_append]
  have hnone : l'.filter (fun a => ¬ Held holds (key a)) = [] := by
    apply List.filter_eq_nil_iff.mpr
    intro a ha
    simp [hnew a ha]
  rw [hnone, List.append_nil]

theorem own_congr (h : ∀ a ∈ l, Held holds (key a) ↔ Held holds' (key a)) :
    own key holds l = own key holds' l := by
  classical
  unfold own
  apply List.filter_congr
  intro a ha
  simp [h a ha]

/-- What is taken out by others. -/
theorem own_take_out (p : α → Bool) : own key holds (l.filter p) = (own key holds l).filter p := by
  classical
  unfold own
  rw [List.filter_filter, List.filter_filter]
  apply List.filter_congr
  intro a _
  exact Bool.and_comm _ _

/-- What is put in by others under a new key that is not held. -/
theorem own_put_in {a : α} (h : ¬ Held holds (key a)) :
    own key holds (l ++ [a]) = own key holds l ++ [a] := by
  classical
  unfold own
  rw [List.filter_append]
  simp [h]

/-- Entries that others change under their keys. -/
theorem own_map {f : α → α} (h : ∀ a, key (f a) = key a) :
    own key holds (l.map f) = (own key holds l).map f := by
  classical
  unfold own
  rw [List.filter_map]
  congr 1
  apply List.filter_congr
  intro a _
  simp [h]

theorem mem_own {a : α} : a ∈ own key holds l ↔ a ∈ l ∧ ¬ Held holds (key a) := by
  classical
  simp [own]

/-! ## The book of the holders -/

/-- A key has one holder at most, and what is held stands in the list. -/
structure Book (holds : ρ → List κ) (ks : List κ) : Prop where
  one : ∀ {r q k}, k ∈ holds r → k ∈ holds q → r = q
  there : ∀ {r k}, k ∈ holds r → k ∈ ks

theorem Book.empty (h : ∀ r, holds r = []) (ks : List κ) : Book holds ks where
  one hr := by simp [h] at hr
  there hr := by simp [h] at hr

/-- Others may do with the list what they want, where they leave the held keys. -/
theorem Book.mono {ks ks' : List κ} (h : Book holds ks)
    (hks : ∀ k, Held holds k → k ∈ ks → k ∈ ks') : Book holds ks' where
  one := h.one
  there hr := hks _ ⟨_, hr⟩ (h.there hr)

/-! ## Moves -/

variable [DecidableEq κ]

/-- Entries that are taken out with their keys: only the other ones are counted anyway. -/
theorem own_filter {g : List κ} (h : ∀ k, Held holds k ↔ k ∈ g ∨ Held holds' k) :
    own key holds' (l.filter fun a => key a ∉ g) = own key holds l := by
  classical
  unfold own
  rw [List.filter_filter]
  apply List.filter_congr
  intro a _
  simp [h, not_or, and_comm]

/-- Whatever a holder does, what is not held stays as it is. -/
theorem Move.own {r : ρ} (h : Move key l (holds r) l' (holds' r))
    (hothers : ∀ q, q ≠ r → holds' q = holds q) : own key holds' l' = own key holds l := by
  have hsame : holds' r = holds r → holds' = holds := by
    intro hr
    funext q
    by_cases hq : q = r
    · rw [hq, hr]
    · exact hothers q hq
  generalize hg : holds r = g at h
  generalize hg' : holds' r = g' at h
  cases h with
  | stay => rw [hsame (hg'.trans hg.symm)]
  | take new hnew =>
    have hheld : ∀ k, Held holds' k ↔ k ∈ new.map key ∨ Held holds k := by
      intro k
      constructor
      · rintro ⟨q, hq⟩
        by_cases hqr : q = r
        · exact .inl (hg' ▸ hqr ▸ hq)
        · exact .inr ⟨q, hothers q hqr ▸ hq⟩
      · rintro (hk | ⟨q, hq⟩)
        · exact ⟨r, hg' ▸ hk⟩
        · have hqr : q ≠ r := by
            rintro rfl
            simp [hg] at hq
          exact ⟨q, (hothers q hqr).symm ▸ hq⟩
    rw [own_append fun a ha => (hheld _).mpr (.inl (List.mem_map_of_mem ha))]
    apply own_congr
    intro a ha
    rw [hheld]
    refine or_iff_right fun hk => ?_
    obtain ⟨b, hb, hab⟩ := List.mem_map.mp hk
    exact hnew b hb (hab ▸ List.mem_map_of_mem ha)
  | give =>
    apply own_filter
    intro k
    constructor
    · rintro ⟨q, hq⟩
      by_cases hqr : q = r
      · exact .inl (hg ▸ hqr ▸ hq)
      · exact .inr ⟨q, (hothers q hqr).symm ▸ hq⟩
    · rintro (hk | ⟨q, hq⟩)
      · exact ⟨r, hg ▸ hk⟩
      · have hqr : q ≠ r := by
          rintro rfl
          simp [hg'] at hq
        exact ⟨q, hothers q hqr ▸ hq⟩

theorem Book.move {r : ρ} (hb : Book holds (l.map key))
    (h : Move key l (holds r) l' (holds' r)) (hothers : ∀ q, q ≠ r → holds' q = holds q) :
    Book holds' (l'.map key) := by
  have hback : ∀ {q k}, k ∈ holds' q → q = r ∧ k ∈ holds' r ∨ q ≠ r ∧ k ∈ holds q := by
    intro q k hq
    by_cases hqr : q = r
    · exact .inl ⟨hqr, hqr ▸ hq⟩
    · exact .inr ⟨hqr, hothers q hqr ▸ hq⟩
  generalize hg : holds r = g at h
  generalize hg' : holds' r = g' at h hback
  cases h with
  | stay =>
    have hin : ∀ {q k}, k ∈ holds' q → k ∈ holds q := by
      intro q k hq
      rcases hback hq with ⟨rfl, hk⟩ | ⟨-, hk⟩
      · exact hg ▸ hk
      · exact hk
    exact ⟨fun ha hc => hb.one (hin ha) (hin hc), fun ha => hb.there (hin ha)⟩
  | take new hnew =>
    have hfresh : ∀ {q k}, k ∈ new.map key → k ∉ holds q := by
      intro q k hk hq
      obtain ⟨b, hbn, rfl⟩ := List.mem_map.mp hk
      exact hnew b hbn (hb.there hq)
    refine ⟨fun {p q k} ha hc => ?_, fun {q k} ha => ?_⟩
    · rcases hback ha with ⟨rfl, hk⟩ | ⟨hp, hk⟩ <;> rcases hback hc with ⟨rfl, hk'⟩ | ⟨hq, hk'⟩
      · rfl
      · exact absurd hk' (hfresh hk)
      · exact absurd hk (hfresh hk')
      · exact hb.one hk hk'
    · rw [List.map_append, List.mem_append]
      rcases hback ha with ⟨rfl, hk⟩ | ⟨-, hk⟩
      · exact .inr hk
      · exact .inl (hb.there hk)
  | give =>
    have hin : ∀ {q k}, k ∈ holds' q → q ≠ r ∧ k ∈ holds q := by
      intro q k hq
      rcases hback hq with ⟨-, hk⟩ | h
      · simp at hk
      · exact h
    refine ⟨fun ha hc => hb.one (hin ha).2 (hin hc).2, fun {q k} ha => ?_⟩
    obtain ⟨hq, hk⟩ := hin ha
    obtain ⟨a, hal, rfl⟩ := List.mem_map.mp (hb.there hk)
    refine List.mem_map_of_mem (List.mem_filter.mpr ⟨hal, ?_⟩)
    have hnot : key a ∉ holds r := fun hr => hq (hb.one hk hr)
    simpa [hg] using hnot

end Holdings
