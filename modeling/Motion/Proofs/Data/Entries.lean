import Motion.Data.Entries
import Mathlib.Tactic.Common

/-!
What the operations on entries do to the value under each key. The keys of entries are distinct
where they are built by `put`, and dropping entries keeps them so; among distinct keys, an entry is
there exactly if its value is found under its key.
-/

set_option autoImplicit false
set_option relaxedAutoImplicit false

namespace Motion.Entries

variable {κ ν : Type} [DecidableEq κ]

@[simp] theorem get?_nil (key : κ) : get? ([] : Entries κ ν) key = none := rfl

theorem get?_cons (entry : κ × ν) (rest : Entries κ ν) (key : κ) :
    get? (entry :: rest) key = if entry.1 = key then some entry.2 else get? rest key := by
  by_cases h : entry.1 = key <;> simp [get?, h]

theorem get?_append (first second : Entries κ ν) (key : κ) :
    get? (first ++ second) key = (get? first key).or (get? second key) := by
  induction first with
  | nil => rfl
  | cons entry rest ih =>
    rw [List.cons_append, get?_cons, get?_cons, ih]
    by_cases h : entry.1 = key <;> simp [h]

theorem get?_put (entries : Entries κ ν) (key other : κ) (value : ν) :
    get? (put entries key value) other = if key = other then some value else get? entries other := by
  induction entries with
  | nil => simp [put, get?_cons]
  | cons entry rest ih =>
    by_cases h : entry.1 = key
    · by_cases hk : key = other <;> simp [put, get?_cons, h, hk]
    · by_cases hk : key = other
      · subst hk
        simp [put, get?_cons, h, ih]
      · simp [put, get?_cons, h, hk, ih]

@[simp] theorem get?_put_self (entries : Entries κ ν) (key : κ) (value : ν) :
    get? (put entries key value) key = some value := by
  simp [get?_put]

theorem get?_put_of_ne {key other : κ} (h : key ≠ other) (entries : Entries κ ν) (value : ν) :
    get? (put entries key value) other = get? entries other := by
  simp [get?_put, h]

/-- Putting the value that is found under a key changes nothing. -/
theorem put_of_get? {entries : Entries κ ν} {key : κ} {value : ν} (h : get? entries key = some value) :
    put entries key value = entries := by
  induction entries with
  | nil => cases h
  | cons entry rest ih =>
    rw [get?_cons] at h
    rw [put]
    split_ifs at h ⊢ with hkey
    · rw [← hkey, ← Option.some.inj h]
    · rw [ih h]

/-- A value that is put takes the place of one put before. -/
theorem put_put (entries : Entries κ ν) (key : κ) (first second : ν) :
    put (put entries key first) key second = put entries key second := by
  induction entries with
  | nil => simp [put]
  | cons entry rest ih => by_cases h : entry.1 = key <;> simp [put, h, ih]

theorem contains_eq_isSome (entries : Entries κ ν) (key : κ) :
    contains entries key = (get? entries key).isSome := by
  induction entries with
  | nil => rfl
  | cons entry rest ih =>
    have step : contains (entry :: rest) key = (decide (entry.1 = key) || contains rest key) := rfl
    rw [step, get?_cons, ih]
    by_cases h : entry.1 = key <;> simp [h]

theorem contains_eq_false_iff (entries : Entries κ ν) (key : κ) :
    contains entries key = false ↔ get? entries key = none := by
  rw [contains_eq_isSome]
  cases get? entries key <;> simp

theorem contains_iff_mem_keys (entries : Entries κ ν) (key : κ) :
    contains entries key = true ↔ key ∈ keys entries := by
  simp [contains, keys]

theorem contains_put (entries : Entries κ ν) (key other : κ) (value : ν) :
    contains (put entries key value) other = (decide (key = other) || contains entries other) := by
  rw [contains_eq_isSome, contains_eq_isSome, get?_put]
  by_cases h : key = other <;> simp [h]

/-- A key that is there keeps its place, another one comes after all others. -/
theorem keys_put (entries : Entries κ ν) (key : κ) (value : ν) :
    keys (put entries key value) =
      if contains entries key then keys entries else keys entries ++ [key] := by
  induction entries with
  | nil => rfl
  | cons entry rest ih =>
    have hcontains : contains (entry :: rest) key =
        (decide (entry.1 = key) || contains rest key) := rfl
    have hkeys : keys (entry :: rest) = entry.1 :: keys rest := rfl
    rw [hcontains, hkeys]
    by_cases h : entry.1 = key
    · simp [put, h, keys]
    · have hput : keys (put (entry :: rest) key value) = entry.1 :: keys (put rest key value) := by
        simp [put, h, keys]
      rw [hput, ih]
      cases contains rest key <;> simp [h]

/-- A value under a new key comes after all others. -/
theorem put_of_contains_eq_false {entries : Entries κ ν} {key : κ}
    (h : contains entries key = false) (value : ν) :
    put entries key value = entries ++ [(key, value)] := by
  induction entries with
  | nil => rfl
  | cons entry rest ih =>
    rw [contains, List.any_cons, Bool.or_eq_false_iff, decide_eq_false_iff_not] at h
    rw [put, if_neg h.1, ih h.2, List.cons_append]

theorem mem_of_get? {entries : Entries κ ν} {key : κ} {value : ν}
    (h : get? entries key = some value) : (key, value) ∈ entries := by
  induction entries with
  | nil => simp at h
  | cons entry rest ih =>
    rw [get?_cons] at h
    by_cases hk : entry.1 = key
    · rw [if_pos hk, Option.some.injEq] at h
      subst hk h
      exact List.mem_cons_self
    · rw [if_neg hk] at h
      exact List.mem_cons_of_mem _ (ih h)

theorem mem_put {entries : Entries κ ν} {key : κ} {value : ν} {entry : κ × ν}
    (h : entry ∈ put entries key value) : entry = (key, value) ∨ entry ∈ entries := by
  induction entries with
  | nil => simpa [put] using h
  | cons first rest ih =>
    by_cases hk : first.1 = key
    · rw [put, if_pos hk] at h
      rcases List.mem_cons.mp h with h | h
      · exact Or.inl h
      · exact Or.inr (List.mem_cons_of_mem _ h)
    · rw [put, if_neg hk] at h
      rcases List.mem_cons.mp h with h | h
      · exact Or.inr (h ▸ List.mem_cons_self)
      · exact (ih h).imp_right (List.mem_cons_of_mem _)

/-- Where a test rejects a key, putting a value under it does not show. -/
theorem filter_put {key : κ} {p : κ × ν → Bool} (h : ∀ value, p (key, value) = false)
    (entries : Entries κ ν) (value : ν) : (put entries key value).filter p = entries.filter p := by
  induction entries with
  | nil => simp [put, h]
  | cons entry rest ih =>
    by_cases hk : entry.1 = key
    · have hentry : p entry = false := by
        have hvalue := h entry.2
        rwa [← hk] at hvalue
      simp [put, hk, h, hentry]
    · simp [put, hk, List.filter_cons, ih]

/-- The value found under a key stays if a test accepts it, whatever goes from behind it. -/
theorem get?_filter_of_accepts {entries : Entries κ ν} {key : κ} {value : ν}
    (h : get? entries key = some value) {p : κ × ν → Bool} (hp : p (key, value) = true) :
    get? (entries.filter p) key = some value := by
  induction entries with
  | nil => simp at h
  | cons entry rest ih =>
    rw [get?_cons] at h
    by_cases hk : entry.1 = key
    · rw [if_pos hk, Option.some.injEq] at h
      have hentry : entry = (key, value) := Prod.ext hk h
      rw [hentry, List.filter_cons_of_pos hp, get?_cons, if_pos rfl]
    · rw [if_neg hk] at h
      cases hentry : p entry <;> simp [hentry, get?_cons, hk, ih h]

theorem contains_filter_eq_false {entries : Entries κ ν} {key : κ}
    (h : contains entries key = false) (p : κ × ν → Bool) :
    contains (entries.filter p) key = false := by
  rw [contains, List.any_eq_false] at h ⊢
  exact fun entry hentry ↦ h entry (List.mem_filter.mp hentry).1

theorem get?_of_mem {entries : Entries κ ν} (hnodup : (keys entries).Nodup) {entry : κ × ν}
    (h : entry ∈ entries) : get? entries entry.1 = some entry.2 := by
  induction entries with
  | nil => simp at h
  | cons first rest ih =>
    rw [keys, List.map_cons, List.nodup_cons] at hnodup
    rw [get?_cons]
    rcases List.mem_cons.mp h with rfl | h
    · simp
    · have hne : first.1 ≠ entry.1 := by
        intro heq
        exact hnodup.1 (heq ▸ List.mem_map_of_mem h)
      rw [if_neg hne]
      exact ih hnodup.2 h

theorem nodup_keys_put {entries : Entries κ ν} (hnodup : (keys entries).Nodup) (key : κ)
    (value : ν) : (keys (put entries key value)).Nodup := by
  rw [keys_put]
  split_ifs with h
  · exact hnodup
  · rw [contains_iff_mem_keys] at h
    refine List.nodup_append.mpr ⟨hnodup, by simp, ?_⟩
    intro a ha b hb hab
    rw [List.mem_singleton] at hb
    exact h (hb ▸ hab ▸ ha)

omit [DecidableEq κ] in
theorem nodup_keys_filter {entries : Entries κ ν} (hnodup : (keys entries).Nodup)
    (p : κ × ν → Bool) : (keys (entries.filter p)).Nodup :=
  (List.filter_sublist.map Prod.fst).nodup hnodup

theorem get?_erase_of_ne {key other : κ} (h : key ≠ other) (entries : Entries κ ν) :
    get? (erase entries key) other = get? entries other := by
  induction entries with
  | nil => rfl
  | cons entry rest ih =>
    rw [get?_cons, ← ih]
    by_cases hk : entry.1 = key
    · have hother : entry.1 ≠ other := hk ▸ h
      simp [erase, hk, hk ▸ hother]
    · simp [erase, hk, get?_cons]

theorem get?_erase_self (entries : Entries κ ν) (key : κ) : get? (erase entries key) key = none := by
  rw [← contains_eq_false_iff, contains, List.any_eq_false]
  intro entry hentry
  simpa using (List.mem_filter.mp hentry).2

theorem erase_put_self (entries : Entries κ ν) (key : κ) (value : ν) :
    erase (put entries key value) key = erase entries key :=
  filter_put (fun _ ↦ by simp) entries value

theorem erase_put_of_ne {key other : κ} (h : key ≠ other) (entries : Entries κ ν) (value : ν) :
    erase (put entries key value) other = put (erase entries other) key value := by
  induction entries with
  | nil => simp [put, erase, h]
  | cons entry rest ih =>
    have hcons (entry : κ × ν) (rest : Entries κ ν) : erase (entry :: rest) other =
        if entry.1 = other then erase rest other else entry :: erase rest other := by
      by_cases hk : entry.1 = other <;> simp [erase, hk]
    by_cases hkey : entry.1 = key
    · have hne : entry.1 ≠ other := hkey ▸ h
      rw [put, if_pos hkey, hcons, hcons, if_neg h, if_neg hne, put, if_pos hkey]
    · rw [put, if_neg hkey, hcons, hcons, ih]
      split_ifs
      · rfl
      · rw [put, if_neg hkey]

/-- Among distinct keys, dropping entries drops the values under their keys. -/
theorem get?_filter {entries : Entries κ ν} (hnodup : (keys entries).Nodup) (p : κ × ν → Bool)
    (key : κ) :
    get? (entries.filter p) key = (get? entries key).filter fun value ↦ p (key, value) := by
  induction entries with
  | nil => rfl
  | cons entry rest ih =>
    rw [keys, List.map_cons, List.nodup_cons] at hnodup
    rw [get?_cons]
    by_cases hk : entry.1 = key
    · subst hk
      have hrest : get? (rest.filter p) entry.1 = none := by
        rw [← contains_eq_false_iff, Bool.eq_false_iff, Ne, contains_iff_mem_keys]
        exact fun h ↦ hnodup.1 ((List.filter_sublist.map Prod.fst).subset h)
      cases hp : p entry <;> simp [hp, get?_cons, hrest, Option.filter]
    · cases hp : p entry <;> simp [hp, get?_cons, hk, ih hnodup.2]

/-- Entries chosen by their keys are found under these as before. -/
theorem get?_filter_keys (entries : Entries κ ν) (p : κ → Bool) (key : κ) :
    get? (entries.filter fun entry ↦ p entry.1) key = if p key then get? entries key else none := by
  induction entries with
  | nil => cases p key <;> rfl
  | cons entry rest ih =>
    rw [get?_cons]
    by_cases hk : entry.1 = key
    · subst hk
      cases hp : p entry.1 <;> simp [hp, get?_cons, ih]
    · cases hp : p entry.1 <;> simp [hp, get?_cons, hk, ih]

/-- Entries that hold the same value under a key both contain the key or both do not. -/
theorem contains_congr {entries others : Entries κ ν} {key : κ}
    (h : get? entries key = get? others key) : contains entries key = contains others key := by
  rw [contains_eq_isSome, contains_eq_isSome, h]

/-- Among distinct keys, that of the first entry is not there again, so what the others hold all
entries hold. -/
theorem of_nodup_cons {key : κ} {value : ν} {rest : Entries κ ν}
    (h : (keys ((key, value) :: rest)).Nodup) : get? rest key = none ∧ (keys rest).Nodup ∧
      ∀ other current, get? rest other = some current →
        get? ((key, value) :: rest) other = some current := by
  rw [keys, List.map_cons, List.nodup_cons] at h
  have habsent : get? rest key = none := by
    rw [← contains_eq_false_iff, Bool.eq_false_iff, Ne, contains_iff_mem_keys]
    exact h.1
  refine ⟨habsent, h.2, fun other current hget ↦ ?_⟩
  rw [get?_cons, if_neg, hget]
  rintro rfl
  rw [habsent] at hget
  cases hget

end Motion.Entries
