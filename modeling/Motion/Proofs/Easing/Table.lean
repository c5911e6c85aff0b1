import Motion.Easing.Table
import Motion.Proofs.Data.Entries
import Motion.Proofs.Easing.Token
import Mathlib.Data.List.Nodup

/-!
What becomes of a table of easings over a run of registrations, discards and resets. Beside the
table stands the list of the names that have been minted since it was empty last, whether they are
still registered or not. What one event keeps is `History.IsSound`; by `IsSound.run` it holds after
every run, and there the programs and the tokens are inverse to each other.
-/

set_option autoImplicit false
set_option relaxedAutoImplicit false

namespace Motion

/-- What may happen to a table of easings. -/
inductive TableEvent where
  | add (program : String)
  | discard (name : String)
  | reset
deriving DecidableEq

namespace EasingTable

/-- The table after an event. -/
def after (table : EasingTable) : TableEvent → EasingTable
  | .add program => (table.add program).1
  | .discard name => table.discard name
  | .reset => table.reset

/-- The table after some events. -/
def run (table : EasingTable) (events : List TableEvent) : EasingTable :=
  events.foldl after table

theorem run_concat (table : EasingTable) (events : List TableEvent) (event : TableEvent) :
    table.run (events ++ [event]) = (table.run events).after event :=
  List.foldl_concat ..

/-- The names that are registered after an event but were not before. -/
def minted (table : EasingTable) (event : TableEvent) : List String :=
  (table.after event).names.filter fun name ↦ !table.names.contains name

/-- Whether a program is registered. -/
def Holds (table : EasingTable) (program : String) : Prop :=
  ∃ name, Entries.get? table.programs name = some program

/-- Whether an event leaves a name in the table: it is no reset and discards no name or token that
stands for it. -/
def Spares (name : String) : TableEvent → Prop
  | .add _ => True
  | .discard other => nameOf other ≠ name
  | .reset => False

end EasingTable

/-- A table with the names that have been minted since it was empty last. -/
structure History where
  table : EasingTable
  minted : List String

namespace History

/-- A new table. -/
def start (precision : ℕ) : History :=
  ⟨.empty precision, []⟩

def after (history : History) (event : TableEvent) : History where
  table := history.table.after event
  minted := if event = .reset then [] else history.minted ++ history.table.minted event

def run (history : History) (events : List TableEvent) : History :=
  events.foldl after history

/-- Distinct programs are registered under distinct names that have been minted, the empty program is
not among them, and the tokens are inverse to them. -/
structure IsSound (history : History) : Prop where
  programs_nodup : (Entries.keys history.table.programs).Nodup
  tokens_nodup : (Entries.keys history.table.tokens).Nodup
  inverse : ∀ program token, Entries.get? history.table.tokens program = some token ↔
    ∃ name, token = tokenOf name ∧ Entries.get? history.table.programs name = some program
  nonempty : ∀ name, Entries.get? history.table.programs name ≠ some ""
  numbered : ∀ name ∈ history.minted, ∃ n, 0 < n ∧ n < history.table.next ∧ name = easeName n
  registered : ∀ name ∈ history.table.names, name ∈ history.minted
  next_pos : 0 < history.table.next

theorem isSound_empty (precision : ℕ) : IsSound ⟨.empty precision, []⟩ where
  programs_nodup := List.nodup_nil
  tokens_nodup := List.nodup_nil
  inverse := fun program token ↦ ⟨fun h ↦ (by cases h), fun ⟨_, _, h⟩ ↦ (by cases h)⟩
  nonempty := fun name h ↦ (by cases h)
  numbered := fun _ h ↦ (by cases h)
  registered := fun _ h ↦ (by cases h)
  next_pos := Nat.one_pos

end History

namespace EasingTable

variable {table : EasingTable}

theorem mem_names {name : String} :
    name ∈ table.names ↔ ∃ program, Entries.get? table.programs name = some program := by
  rw [names, ← Entries.contains_iff_mem_keys, Entries.contains_eq_isSome, Option.isSome_iff_exists]

theorem add_empty (table : EasingTable) : table.add "" = (table, "") :=
  rfl

theorem add_of_get? {program token : String} (hne : program ≠ "")
    (h : Entries.get? table.tokens program = some token) :
    table.add program = (table, token) := by
  have hempty : program.isEmpty = false := by simpa using hne
  rw [add, hempty, h]
  rfl

/-- The registration of a program that is not registered yet. -/
theorem add_of_get?_eq_none {program : String} (hne : program ≠ "")
    (h : Entries.get? table.tokens program = none) :
    table.add program =
      ({ table with
          programs := Entries.put table.programs (easeName table.next) program
          tokens := Entries.put table.tokens program (tokenOf (easeName table.next))
          next := table.next + 1 }, tokenOf (easeName table.next)) := by
  have hempty : program.isEmpty = false := by simpa using hne
  rw [add, hempty, h]
  rfl

end EasingTable

namespace History

variable {history : History}

theorem IsSound.tokens_none_iff (h : history.IsSound) {program : String} :
    Entries.get? history.table.tokens program = none ↔ ¬ history.table.Holds program := by
  rw [Option.eq_none_iff_forall_ne_some]
  constructor
  · rintro hnone ⟨name, hname⟩
    exact hnone _ ((h.inverse program (tokenOf name)).mpr ⟨name, rfl, hname⟩)
  · intro hnot token htoken
    obtain ⟨name, -, hname⟩ := (h.inverse program token).mp htoken
    exact hnot ⟨name, hname⟩

/-- The name with the next number has not been minted. -/
theorem IsSound.next_not_mem (h : history.IsSound) :
    easeName history.table.next ∉ history.minted := by
  intro hmem
  obtain ⟨n, -, hless, hname⟩ := h.numbered _ hmem
  exact hless.ne' (easeName_injective hname)

/-- No two names have the same program. -/
theorem IsSound.name_unique (h : history.IsSound) {name other program : String}
    (hname : Entries.get? history.table.programs name = some program)
    (hother : Entries.get? history.table.programs other = some program) : name = other := by
  have hfirst := (h.inverse program (tokenOf name)).mpr ⟨name, rfl, hname⟩
  have hsecond := (h.inverse program (tokenOf other)).mpr ⟨other, rfl, hother⟩
  rw [hfirst] at hsecond
  exact tokenOf_injective (Option.some.inj hsecond)

/-- What brings no names into the table mints none. -/
theorem minted_eq_nil {table : EasingTable} {event : TableEvent}
    (h : ∀ name ∈ (table.after event).names, name ∈ table.names) : table.minted event = [] := by
  rw [EasingTable.minted, List.filter_eq_nil_iff]
  intro name hname
  simpa using h name hname

theorem IsSound.names_add_new (h : history.IsSound) {program : String} (hne : program ≠ "")
    (hnew : ¬ history.table.Holds program) :
    (history.table.add program).1.names = history.table.names ++ [easeName history.table.next] := by
  have habsent : Entries.contains history.table.programs (easeName history.table.next) = false := by
    rw [Bool.eq_false_iff, Ne, Entries.contains_iff_mem_keys]
    exact fun hmem ↦ h.next_not_mem (h.registered _ hmem)
  rw [EasingTable.add_of_get?_eq_none hne (h.tokens_none_iff.mpr hnew)]
  exact (Entries.keys_put _ _ _).trans (by rw [habsent]; rfl)

theorem IsSound.minted_add_new (h : history.IsSound) {program : String} (hne : program ≠ "")
    (hnew : ¬ history.table.Holds program) :
    history.table.minted (.add program) = [easeName history.table.next] := by
  have hnot : easeName history.table.next ∉ history.table.names :=
    fun hmem ↦ h.next_not_mem (h.registered _ hmem)
  have hold : history.table.names.filter (fun name ↦ !history.table.names.contains name) = [] := by
    simp
  rw [EasingTable.minted, EasingTable.after, h.names_add_new hne hnew, List.filter_append, hold]
  simp [hnot]

/-- Where an event changes nothing in the table, nothing is minted either. -/
theorem after_eq_self {event : TableEvent} (hreset : event ≠ .reset)
    (h : history.table.after event = history.table) : history.after event = history := by
  have hnone : history.table.minted event = [] :=
    minted_eq_nil fun name hname ↦ by rwa [h] at hname
  rw [after, hnone, h, if_neg hreset, List.append_nil]

theorem IsSound.add_of_holds (h : history.IsSound) {name program : String}
    (hname : Entries.get? history.table.programs name = some program) :
    history.table.add program = (history.table, tokenOf name) := by
  refine EasingTable.add_of_get? ?_ ((h.inverse program _).mpr ⟨name, rfl, hname⟩)
  rintro rfl
  exact h.nonempty name hname

/-- The table after the registration of a new program. -/
theorem IsSound.after_add_new (h : history.IsSound) {program : String} (hne : program ≠ "")
    (hnew : ¬ history.table.Holds program) :
    history.after (.add program) =
      ⟨{ history.table with
          programs := Entries.put history.table.programs (easeName history.table.next) program
          tokens := Entries.put history.table.tokens program (tokenOf (easeName history.table.next))
          next := history.table.next + 1 },
        history.minted ++ [easeName history.table.next]⟩ := by
  rw [after, h.minted_add_new hne hnew, if_neg (by simp), EasingTable.after,
    EasingTable.add_of_get?_eq_none hne (h.tokens_none_iff.mpr hnew)]

/-- A new program under a fresh name and its token: the tokens stay inverse to the programs. -/
theorem IsSound.inverse_put (h : history.IsSound) {program : String}
    (hnew : ¬ history.table.Holds program) (other token : String) :
    Entries.get? (Entries.put history.table.tokens program
        (tokenOf (easeName history.table.next))) other = some token ↔
      ∃ name, token = tokenOf name ∧ Entries.get? (Entries.put history.table.programs
        (easeName history.table.next) program) name = some other := by
  have hfresh (name : String) (hname : Entries.get? history.table.programs name = some other) :
      easeName history.table.next ≠ name := by
    rintro rfl
    exact h.next_not_mem (h.registered _ (EasingTable.mem_names.mpr ⟨other, hname⟩))
  rw [Entries.get?_put]
  by_cases hother : program = other
  · subst hother
    rw [if_pos rfl]
    constructor
    · intro htoken
      exact ⟨_, (Option.some.inj htoken).symm, Entries.get?_put_self _ _ _⟩
    · rintro ⟨name, rfl, hname⟩
      rw [Entries.get?_put] at hname
      split_ifs at hname with hsame
      · rw [hsame]
      · exact absurd ⟨name, hname⟩ hnew
  · rw [if_neg hother, h.inverse]
    refine exists_congr fun name ↦ and_congr_right fun _ ↦ ⟨fun hname ↦ ?_, fun hname ↦ ?_⟩
    · rw [Entries.get?_put_of_ne (hfresh name hname), hname]
    · rw [Entries.get?_put] at hname
      split_ifs at hname with hsame
      · exact absurd (Option.some.inj hname) hother
      · exact hname

theorem IsSound.add_new (h : history.IsSound) {program : String} (hne : program ≠ "")
    (hnew : ¬ history.table.Holds program) : (history.after (.add program)).IsSound := by
  have hnames := h.names_add_new hne hnew
  rw [EasingTable.add_of_get?_eq_none hne (h.tokens_none_iff.mpr hnew)] at hnames
  rw [h.after_add_new hne hnew]
  refine ⟨Entries.nodup_keys_put h.programs_nodup _ _, Entries.nodup_keys_put h.tokens_nodup _ _,
    h.inverse_put hnew, fun name hname ↦ ?_, fun name hname ↦ ?_, fun name hname ↦ ?_,
    Nat.succ_pos _⟩
  · rw [Entries.get?_put] at hname
    split_ifs at hname
    · exact hne (Option.some.inj hname)
    · exact h.nonempty name hname
  · rcases List.mem_append.mp hname with hname | hname
    · obtain ⟨n, hpos, hless, rfl⟩ := h.numbered name hname
      exact ⟨n, hpos, Nat.lt_succ_of_lt hless, rfl⟩
    · exact ⟨_, h.next_pos, Nat.lt_succ_self _, List.mem_singleton.mp hname⟩
  · rw [hnames, List.mem_append] at hname
    exact List.mem_append.mpr (hname.imp_left (h.registered name))

/-- A registration keeps the table sound. -/
theorem IsSound.add (h : history.IsSound) (program : String) :
    (history.after (.add program)).IsSound := by
  by_cases hne : program = ""
  · have hsame : history.table.after (.add program) = history.table := by
      rw [hne, EasingTable.after, EasingTable.add_empty]
    rw [after_eq_self (by simp) hsame]
    exact h
  · by_cases hold : history.table.Holds program
    · obtain ⟨name, hname⟩ := hold
      have hsame : history.table.after (.add program) = history.table := by
        rw [EasingTable.after, h.add_of_holds hname]
      rw [after_eq_self (by simp) hsame]
      exact h
    · exact h.add_new hne hold

/-- What is found under a name after another one has been discarded together with its program. -/
theorem IsSound.inverse_erase (h : history.IsSound) {name program : String}
    (hname : Entries.get? history.table.programs name = some program) (other token : String) :
    Entries.get? (Entries.erase history.table.tokens program) other = some token ↔
      ∃ kept, token = tokenOf kept ∧
        Entries.get? (Entries.erase history.table.programs name) kept = some other := by
  by_cases hother : program = other
  · subst hother
    rw [Entries.get?_erase_self]
    refine ⟨fun htoken ↦ (by cases htoken), ?_⟩
    rintro ⟨kept, rfl, hkept⟩
    by_cases hsame : name = kept
    · rw [hsame, Entries.get?_erase_self] at hkept
      cases hkept
    · rw [Entries.get?_erase_of_ne hsame] at hkept
      exact absurd (h.name_unique hname hkept) hsame
  · rw [Entries.get?_erase_of_ne hother, h.inverse]
    refine exists_congr fun kept ↦ and_congr_right fun _ ↦ ?_
    by_cases hsame : name = kept
    · subst hsame
      rw [Entries.get?_erase_self, hname, Option.some.injEq]
      exact ⟨fun heq ↦ absurd heq hother, fun hnone ↦ (by cases hnone)⟩
    · rw [Entries.get?_erase_of_ne hsame]

/-- A discard keeps the table sound. -/
theorem IsSound.discard (h : history.IsSound) (name : String) :
    (history.after (.discard name)).IsSound := by
  cases hget : history.table.get? name with
  | none =>
    have hsame : history.table.after (.discard name) = history.table := by
      rw [EasingTable.after, EasingTable.discard, hget]
    rw [after_eq_self (by simp) hsame]
    exact h
  | some program =>
    have htable : history.table.after (.discard name) =
        { history.table with
          programs := Entries.erase history.table.programs (nameOf name)
          tokens := Entries.erase history.table.tokens program } := by
      rw [EasingTable.after, EasingTable.discard, hget]
    have hnames (kept : String) (hkept : kept ∈ (history.table.after (.discard name)).names) :
        kept ∈ history.table.names := by
      rw [htable] at hkept
      exact (List.filter_sublist.map Prod.fst).subset hkept
    have hafter : history.after (.discard name) =
        ⟨history.table.after (.discard name), history.minted⟩ := by
      rw [History.after, minted_eq_nil hnames, if_neg (by simp), List.append_nil]
    rw [hafter]
    refine ⟨?_, ?_, ?_, fun kept hkept ↦ ?_, ?_,
      fun kept hkept ↦ h.registered kept (hnames kept hkept), ?_⟩
    · rw [htable]
      exact Entries.nodup_keys_filter h.programs_nodup _
    · rw [htable]
      exact Entries.nodup_keys_filter h.tokens_nodup _
    · rw [htable]
      exact h.inverse_erase hget
    · rw [htable] at hkept
      by_cases hsame : nameOf name = kept
      · rw [hsame, Entries.get?_erase_self] at hkept
        cases hkept
      · rw [Entries.get?_erase_of_ne hsame] at hkept
        exact h.nonempty kept hkept
    · rw [htable]
      exact h.numbered
    · rw [htable]
      exact h.next_pos

theorem IsSound.after (h : history.IsSound) (event : TableEvent) : (history.after event).IsSound := by
  cases event with
  | add program => exact h.add program
  | discard name => exact h.discard name
  | reset => exact isSound_empty _

theorem IsSound.run (h : history.IsSound) (events : List TableEvent) :
    (history.run events).IsSound := by
  induction events generalizing history with
  | nil => exact h
  | cons event rest ih => exact ih (h.after event)

theorem table_run (history : History) (events : List TableEvent) :
    (history.run events).table = history.table.run events := by
  induction events generalizing history with
  | nil => rfl
  | cons event rest ih => exact ih (history.after event)

/-- A program stays under its name through an event that spares the name. -/
theorem IsSound.get?_after (h : history.IsSound) {name program : String}
    (hname : Entries.get? history.table.programs name = some program) {event : TableEvent}
    (hspares : EasingTable.Spares name event) :
    Entries.get? (history.table.after event).programs name = some program := by
  cases event with
  | add other =>
    by_cases hne : other = ""
    · rw [hne, EasingTable.after, EasingTable.add_empty, hname]
    · by_cases hold : history.table.Holds other
      · obtain ⟨kept, hkept⟩ := hold
        rw [EasingTable.after, h.add_of_holds hkept, hname]
      · have hfresh : easeName history.table.next ≠ name := by
          rintro rfl
          exact h.next_not_mem (h.registered _ (EasingTable.mem_names.mpr ⟨program, hname⟩))
        rw [EasingTable.after, EasingTable.add_of_get?_eq_none hne (h.tokens_none_iff.mpr hold)]
        exact (Entries.get?_put_of_ne hfresh _ _).trans hname
  | discard other =>
    rw [EasingTable.after, EasingTable.discard]
    split
    · exact hname
    · exact (Entries.get?_erase_of_ne hspares _).trans hname
  | reset => cases hspares

/-- A program stays under its name through events that spare the name. -/
theorem IsSound.get?_run (h : history.IsSound) {name program : String}
    (hname : Entries.get? history.table.programs name = some program) {events : List TableEvent}
    (hspares : ∀ event ∈ events, EasingTable.Spares name event) :
    Entries.get? (history.table.run events).programs name = some program := by
  induction events generalizing history with
  | nil => exact hname
  | cons event rest ih =>
    obtain ⟨hevent, hrest⟩ := List.forall_mem_cons.mp hspares
    exact ih (h.after event) (h.get?_after hname hevent) hrest

theorem precision_run (history : History) (events : List TableEvent) :
    (history.run events).table.precision = history.table.precision := by
  induction events generalizing history with
  | nil => rfl
  | cons event rest ih =>
    have hevent : (history.after event).table.precision = history.table.precision := by
      cases event with
      | add program =>
        change (history.table.add program).1.precision = _
        unfold EasingTable.add
        split_ifs
        · rfl
        · split <;> rfl
      | discard name =>
        change (history.table.discard name).precision = _
        unfold EasingTable.discard
        split <;> rfl
      | reset => rfl
    exact (ih (history.after event)).trans hevent

/-- What an event other than a reset leaves under a name that has been minted was there before. -/
theorem IsSound.get?_of_after (h : history.IsSound) {name program : String}
    (hminted : name ∈ history.minted) {event : TableEvent} (hreset : event ≠ .reset)
    (hname : Entries.get? (history.table.after event).programs name = some program) :
    Entries.get? history.table.programs name = some program := by
  cases event with
  | add other =>
    by_cases hne : other = ""
    · rwa [hne, EasingTable.after, EasingTable.add_empty] at hname
    · by_cases hold : history.table.Holds other
      · obtain ⟨kept, hkept⟩ := hold
        rwa [EasingTable.after, h.add_of_holds hkept] at hname
      · have hfresh : easeName history.table.next ≠ name := by
          rintro rfl
          exact h.next_not_mem hminted
        rw [EasingTable.after, EasingTable.add_of_get?_eq_none hne (h.tokens_none_iff.mpr hold),
          Entries.get?_put_of_ne hfresh] at hname
        exact hname
  | discard other =>
    rw [EasingTable.after, EasingTable.discard] at hname
    split at hname
    · exact hname
    · by_cases hsame : nameOf other = name
      · rw [hsame, Entries.get?_erase_self] at hname
        cases hname
      · rwa [Entries.get?_erase_of_ne hsame] at hname
  | reset => exact absurd rfl hreset

/-- A name that has been minted is given to no other program until the reset. -/
theorem IsSound.get?_of_run (h : history.IsSound) {name program : String}
    (hminted : name ∈ history.minted) {events : List TableEvent} (hreset : .reset ∉ events)
    (hname : Entries.get? (history.table.run events).programs name = some program) :
    Entries.get? history.table.programs name = some program := by
  induction events generalizing history with
  | nil => exact hname
  | cons event rest ih =>
    rw [List.mem_cons, not_or] at hreset
    have hkept : name ∈ (history.after event).minted := by
      rw [History.after, if_neg (Ne.symm hreset.1)]
      exact List.mem_append_left _ hminted
    exact h.get?_of_after hminted (Ne.symm hreset.1) (ih (h.after event) hkept hreset.2 hname)

/-- A name that is registered has no other program later, until the reset. -/
theorem IsSound.program_unique (h : history.IsSound) {name program later : String}
    (hname : Entries.get? history.table.programs name = some program) {events : List TableEvent}
    (hreset : .reset ∉ events)
    (hlater : Entries.get? (history.table.run events).programs name = some later) :
    later = program := by
  have hminted := h.registered name (EasingTable.mem_names.mpr ⟨program, hname⟩)
  rw [h.get?_of_run hminted hreset hlater] at hname
  exact Option.some.inj hname

/-- The token of a program that is registered stands for a name with the program. -/
theorem IsSound.add_spec (h : history.IsSound) {program : String} (hne : program ≠ "") :
    ∃ name, nameOf name = name ∧ (history.table.add program).2 = tokenOf name ∧
      Entries.get? (history.table.add program).1.programs name = some program := by
  by_cases hold : history.table.Holds program
  · obtain ⟨name, hname⟩ := hold
    obtain ⟨n, -, -, rfl⟩ := h.numbered name
      (h.registered name (EasingTable.mem_names.mpr ⟨program, hname⟩))
    rw [h.add_of_holds hname]
    exact ⟨_, nameOf_easeName n, rfl, hname⟩
  · rw [EasingTable.add_of_get?_eq_none hne (h.tokens_none_iff.mpr hold)]
    exact ⟨_, nameOf_easeName _, rfl, Entries.get?_put_self _ _ _⟩

end History

/-- After any run from a new table the programs have distinct names, the tokens are inverse to them,
and the names are numbered below the next number. A program that is registered is found under its
name and its token until that is discarded or the table is reset; where it is registered already,
nothing changes, and else its name has not been minted since the last reset. -/
theorem EasingTable.run_inverse (precision : ℕ) (events : List TableEvent) :
    let history := (History.start precision).run events
    let table := (EasingTable.empty precision).run events
    history.table = table ∧
    (Entries.keys table.programs).Nodup ∧ (Entries.keys table.tokens).Nodup ∧
    (∀ program token, Entries.get? table.tokens program = some token ↔
      ∃ name, token = tokenOf name ∧ Entries.get? table.programs name = some program) ∧
    (table.programs.map Prod.snd).Nodup ∧
    (∀ name ∈ table.names, ∃ n, 0 < n ∧ n < table.next ∧ name = easeName n) ∧
    (∀ program, program ≠ "" → ∃ name, (table.add program).2 = tokenOf name ∧
      ∀ later, (∀ event ∈ later, Spares name event) →
        ((table.add program).1.run later).get? name = some program ∧
          ((table.add program).1.run later).get? (tokenOf name) = some program) ∧
    (∀ name program, Entries.get? table.programs name = some program →
      table.add program = (table, tokenOf name)) ∧
    ∀ program, program ≠ "" → ¬ table.Holds program → ∃ name,
      (table.add program).2 = tokenOf name ∧ table.minted (.add program) = [name] ∧
        name ∉ history.minted := by
  intro history table
  have htable : history.table = table := History.table_run _ _
  have h : history.IsSound := (History.isSound_empty precision).run events
  rw [← htable]
  refine ⟨rfl, h.programs_nodup, h.tokens_nodup, h.inverse, ?_,
    fun name hname ↦ h.numbered name (h.registered name hname), fun program hne ↦ ?_,
    fun name program hname ↦ h.add_of_holds hname, fun program hne hnew ↦ ?_⟩
  · refine List.Nodup.map_on ?_ (List.Nodup.of_map _ h.programs_nodup)
    intro entry hentry other hother hsame
    refine Prod.ext (h.name_unique (Entries.get?_of_mem h.programs_nodup hentry) ?_) hsame
    rw [hsame]
    exact Entries.get?_of_mem h.programs_nodup hother
  · obtain ⟨name, hself, htoken, hname⟩ := h.add_spec hne
    refine ⟨name, htoken, fun later hspares ↦ ?_⟩
    have hkept := (h.add program).get?_run hname hspares
    rw [EasingTable.get?, EasingTable.get?, nameOf_tokenOf, hself]
    exact ⟨hkept, hkept⟩
  · refine ⟨_, ?_, h.minted_add_new hne hnew, h.next_not_mem⟩
    rw [EasingTable.add_of_get?_eq_none hne (h.tokens_none_iff.mpr hnew)]

/-- A program that is registered anew after a discard gets a new name. -/
example : ((History.start 3).run
    [.add "line(0,0) end(5,5)", .discard "@ease1", .add "line(0,0) end(5,5)"]).minted =
      ["ease1", "ease2"] := by
  decide

end Motion
