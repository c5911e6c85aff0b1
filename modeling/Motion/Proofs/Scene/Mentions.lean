import Motion.Proofs.Easing.Mention
import Motion.Proofs.Scene.Seams

/-!
Which easings a scene mentions. A scene mentions a token if a leaf does or the frame of a group
(`Item.Mentions`); read from a document it mentions what the document uses (`Item.mem_usedTokens`), and
so it does where it is written back. Making lists and splicing change nothing of that.
-/

set_option autoImplicit false
set_option relaxedAutoImplicit false

namespace Motion

namespace Frame

/-- The easing tokens in the members of a group other than its items. -/
def tokens (frame : Frame) : List String :=
  Data.tokensInMembers frame.members

end Frame

namespace Item

variable {α : Type} {q : Frame → Prop} {token : String}

mutual

/-- Whether a token occurs in a leaf from an item on downwards, or some frame satisfies a condition. -/
def Mentions (q : Frame → Prop) (token : String) : Item → Prop
  | .leaf value => token ∈ value.easingTokens
  | .group frame items => q frame ∨ MentionsIn q token items

def MentionsIn (q : Frame → Prop) (token : String) : List Item → Prop
  | [] => False
  | item :: rest => Mentions q token item ∨ MentionsIn q token rest

end

theorem mentionsIn_iff {items : List Item} :
    MentionsIn q token items ↔ ∃ item ∈ items, Mentions q token item := by
  induction items with
  | nil => simp [MentionsIn]
  | cons item rest ih => simp [MentionsIn, ih]

theorem mentionsIn_append {first second : List Item} :
    MentionsIn q token (first ++ second) ↔ MentionsIn q token first ∨ MentionsIn q token second := by
  simp only [mentionsIn_iff, List.mem_append, or_and_right, exists_or]

mutual

/-- Where a token is not mentioned, no frame satisfies the condition. -/
theorem every_of_not_mentions {p : Frame → List Item → Prop} : ∀ item : Item, Every p item →
    ¬ Mentions q token item → Every (fun frame items ↦ p frame items ∧ ¬ q frame) item
  | .leaf _, h, _ => h
  | .group _ items, h, hnot =>
    ⟨⟨h.1, fun hq ↦ hnot (Or.inl hq)⟩,
      everyIn_of_not_mentionsIn items h.2 fun hitems ↦ hnot (Or.inr hitems)⟩

theorem everyIn_of_not_mentionsIn {p : Frame → List Item → Prop} : ∀ items : List Item,
    EveryIn p items → ¬ MentionsIn q token items →
      EveryIn (fun frame items ↦ p frame items ∧ ¬ q frame) items
  | [], _, _ => trivial
  | item :: rest, h, hnot =>
    ⟨every_of_not_mentions item h.1 fun hitem ↦ hnot (Or.inl hitem),
      everyIn_of_not_mentionsIn rest h.2 fun hrest ↦ hnot (Or.inr hrest)⟩

end

section Leaves

variable {view : Frame → α}

mutual

/-- What no frame mentions a leaf does. -/
theorem exists_leaf_of_mentions : ∀ item : Item, Mentions q token item →
    Every (fun frame _ ↦ ¬ q frame) item →
      ∃ leaf ∈ leaves view item, token ∈ leaf.value.easingTokens
  | .leaf value, h, _ => ⟨_, List.mem_singleton.mpr rfl, h⟩
  | .group frame items, h, hevery => by
    obtain ⟨below, hbelow, htoken⟩ :=
      exists_leaf_of_mentionsIn items (h.resolve_left hevery.1) hevery.2
    exact ⟨below.under (view frame), List.mem_map_of_mem hbelow, htoken⟩

theorem exists_leaf_of_mentionsIn : ∀ items : List Item, MentionsIn q token items →
    EveryIn (fun frame _ ↦ ¬ q frame) items →
      ∃ leaf ∈ leavesIn view items, token ∈ leaf.value.easingTokens
  | item :: rest, h, hevery => by
    rw [leavesIn]
    rcases h with h | h
    · obtain ⟨first, hfirst, htoken⟩ := exists_leaf_of_mentions item h hevery.1
      exact ⟨first, List.mem_append_left _ hfirst, htoken⟩
    · obtain ⟨other, hother, htoken⟩ := exists_leaf_of_mentionsIn rest h hevery.2
      exact ⟨other, List.mem_append_right _ hother, htoken⟩

end

mutual

theorem mentions_of_leaf : ∀ (item : Item) (found : Leaf α), found ∈ leaves view item →
    token ∈ found.value.easingTokens → Mentions q token item
  | .leaf value, found, hfound, htoken => by
    rw [leaves, List.mem_singleton] at hfound
    rwa [hfound] at htoken
  | .group frame items, found, hfound, htoken => by
    obtain ⟨below, hbelow, rfl⟩ := List.mem_map.mp hfound
    exact Or.inr (mentionsIn_of_leaf items below hbelow htoken)

theorem mentionsIn_of_leaf : ∀ (items : List Item) (found : Leaf α), found ∈ leavesIn view items →
    token ∈ found.value.easingTokens → MentionsIn q token items
  | item :: rest, found, hfound, htoken => by
    rw [leavesIn, List.mem_append] at hfound
    exact hfound.imp (mentions_of_leaf item found · htoken)
      (mentionsIn_of_leaf rest found · htoken)

end

end Leaves

section Reading

theorem mem_tokens_frameOf_cons {key : String} {value : Data} {rest : Members}
    (h : key ≠ itemsKey) : token ∈ (frameOf ((key, value) :: rest)).tokens ↔
      (isPrivate key = false ∧ token ∈ value.easingTokens) ∨ token ∈ (frameOf rest).tokens := by
  have hmembers : (frameOf ((key, value) :: rest)).members =
      (key, value) :: (frameOf rest).members := by
    simp [Frame.members, frameOf, h]
  rw [Frame.tokens, hmembers, Data.mem_tokensInMembers, Frame.tokens, Data.mem_tokensInMembers]
  simp

theorem tokens_frameOf_items (value : Data) (rest : Members) :
    (frameOf ((itemsKey, value) :: rest)).tokens = Data.tokensInMembers rest := by
  simp [Frame.tokens, Frame.members, frameOf]

mutual

/-- An item of a document mentions what it does in the document. -/
theorem mentions_ofData : ∀ value : Data,
    Mentions (fun frame ↦ token ∈ frame.tokens) token (ofData value) ↔ token ∈ value.easingTokens
  | .obj members => by
    by_cases h : Motion.isGroup members = true
    · rw [ofData, if_pos h, Mentions, Data.easingTokens]
      exact mentionsIn_itemsOf members
    · rw [ofData, if_neg h, Mentions]
  | .null | .bool _ | .num _ | .str _ | .list _ => Iff.rfl

theorem mentionsIn_itemsOf : ∀ members : List (String × Data),
    token ∈ (frameOf members).tokens ∨
        MentionsIn (fun frame ↦ token ∈ frame.tokens) token (itemsOf members) ↔
      token ∈ Data.tokensInMembers members
  | [] => by simp [Frame.tokens, Frame.members, frameOf, itemsOf, MentionsIn]
  | (key, value) :: rest => by
    have hpublic : isPrivate itemsKey = false := by decide
    by_cases h : key = itemsKey
    · subst h
      have hitems : MentionsIn (fun frame ↦ token ∈ frame.tokens) token
          (itemsOf ((itemsKey, value) :: rest)) ↔ token ∈ value.easingTokens := by
        cases value with
        | list items =>
          rw [itemsOf, if_pos rfl, Data.easingTokens]
          exact mentionsIn_ofList items
        | _ => simpa [itemsOf, MentionsIn] using mentions_ofData _
      rw [tokens_frameOf_items, hitems, Data.tokensInMembers, hpublic, or_comm]
      simp
    · have hitems : itemsOf ((key, value) :: rest) = itemsOf rest := by
        cases value <;> simp [itemsOf, h]
      have hrest := mentionsIn_itemsOf rest
      rw [mem_tokens_frameOf_cons h, hitems, or_assoc, hrest, Data.mem_tokensInMembers,
        Data.mem_tokensInMembers]
      simp

theorem mentionsIn_ofList : ∀ items : List Data,
    MentionsIn (fun frame ↦ token ∈ frame.tokens) token (ofList items) ↔
      token ∈ Data.tokensInList items
  | [] => by simp [ofList, MentionsIn, Data.tokensInList]
  | value :: rest => by
    rw [ofList, MentionsIn, Data.tokensInList, List.mem_append, mentions_ofData value,
      mentionsIn_ofList rest]

end

/-- What the items of a root mention is what the document uses. -/
theorem mem_usedTokens {members : Members} : token ∈ (Data.obj members).usedTokens ↔
    MentionsIn (fun frame ↦ token ∈ frame.tokens) token (itemsOf members) := by
  rw [itemsOf_eq, mentionsIn_ofList, Data.usedTokens, Data.get?, Data.heldItems]
  cases Entries.get? members itemsKey with
  | none => simp [Data.easingTokens, Data.tokensInList]
  | some value => cases value <;> simp [Data.easingTokens, Data.tokensInList]

end Reading

section Writing

theorem mem_tokens_written {frame : Frame} {items : List Item} (h : frame.HasList items) :
    token ∈ Data.tokensInMembers (frame.written (toList items)) ↔
      token ∈ frame.tokens ∨ token ∈ Data.tokensInList (toList items) := by
  have hpublic : isPrivate itemsKey = false := by decide
  have happend (first second : Members) : token ∈ Data.tokensInMembers (first ++ second) ↔
      token ∈ Data.tokensInMembers first ∨ token ∈ Data.tokensInMembers second := by
    simp only [Data.mem_tokensInMembers, List.mem_append, or_and_right, exists_or]
  have hitems : token ∈ Data.tokensInMembers (itemsMember frame.holding (toList items)) ↔
      token ∈ Data.tokensInList (toList items) := by
    rcases h with hlisted | ⟨habsent, rfl⟩
    · simp [hlisted, itemsMember, Data.tokensInMembers, hpublic, Data.easingTokens]
    · simp [habsent, itemsMember, Data.tokensInMembers, toList, Data.tokensInList]
  rw [Frame.written, Frame.tokens, Frame.members, happend, happend, happend, hitems, or_right_comm]

mutual

/-- An item mentions what the value does that it is written as. -/
theorem mentions_toData : ∀ item : Item, Every Frame.HasList item →
    (token ∈ item.toData.easingTokens ↔ Mentions (fun frame ↦ token ∈ frame.tokens) token item)
  | .leaf _, _ => Iff.rfl
  | .group frame items, h => by
    rw [show toData (.group frame items) = .obj (frame.written (toList items)) from rfl,
      Data.easingTokens, mem_tokens_written h.1, mentionsIn_toList items h.2, Mentions]

theorem mentionsIn_toList : ∀ items : List Item, EveryIn Frame.HasList items →
    (token ∈ Data.tokensInList (toList items) ↔
      MentionsIn (fun frame ↦ token ∈ frame.tokens) token items)
  | [], _ => by simp [toList, Data.tokensInList, MentionsIn]
  | item :: rest, h => by
    rw [toList, Data.tokensInList, List.mem_append, mentions_toData item h.1,
      mentionsIn_toList rest h.2, MentionsIn]

end

/-- With other items a document uses what these mention. -/
theorem mem_usedTokens_put {items : List Item} (h : EveryIn Frame.HasList items)
    (members : Members) :
    token ∈ (Data.obj (Entries.put members itemsKey (.list (toList items)))).usedTokens ↔
      MentionsIn (fun frame ↦ token ∈ frame.tokens) token items := by
  rw [Data.usedTokens, Data.get?, Entries.get?_put_self, Option.getD_some, Data.easingTokens,
    mentionsIn_toList items h]

end Writing

section Walks

variable {limit : ℤ}

mutual

theorem listBelow_mentions (hq : ∀ frame, q { frame with holding := .listed } ↔ q frame) :
    ∀ (item : Item) (depth : ℤ), (listBelow limit depth item).fault? = none →
      (Mentions q token (listBelow limit depth item).value ↔ Mentions q token item)
  | .leaf _, _, _ => Iff.rfl
  | .group frame items, depth, hfault => by
    rw [listBelow] at hfault ⊢
    split_ifs at hfault ⊢
    · exact Iff.rfl
    · obtain ⟨hcheck, hbelow⟩ := Progress.fault?_guarded_eq_none.mp hfault
      rw [hcheck, Progress.guarded_none, Progress.value_map, Mentions, Mentions, hq,
        listEach_mentions hq items (depth + 1) hbelow]

/-- Making lists keeps what is mentioned. -/
theorem listEach_mentions (hq : ∀ frame, q { frame with holding := .listed } ↔ q frame) :
    ∀ (items : List Item) (depth : ℤ), (listEach limit depth items).fault? = none →
      (MentionsIn q token (listEach limit depth items).value ↔ MentionsIn q token items)
  | [], _, _ => Iff.rfl
  | item :: rest, depth, hfault => by
    obtain ⟨hfirst, hrest⟩ := Progress.fault?_cons_eq_none.mp hfault
    rw [listEach, Progress.value_cons hfirst, MentionsIn, MentionsIn,
      listBelow_mentions hq item depth hfirst, listEach_mentions hq rest depth hrest]

end

section Splicing

variable {p : Frame → Prop}

/-- Where redundant groups mention nothing themselves, their items mention all they do. -/
theorem spliceEach_mentions (hidle : ∀ frame items, p frame →
    isRedundant (.group frame items) = true → ¬ q frame) {items : List Item}
    (h : EveryIn (fun frame items ↦ p frame ∧ frame.HasList items) items) :
    MentionsIn q token (spliceEach items) ↔ MentionsIn q token items := by
  induction items with
  | nil => exact Iff.rfl
  | cons item rest ih =>
    have hitem : MentionsIn q token (spliced item) ↔ Mentions q token item := by
      cases item with
      | leaf value => simp [spliced, MentionsIn]
      | group frame items =>
        rw [spliced]
        split_ifs with hredundant
        · rw [Mentions, or_iff_right (hidle frame items h.1.1.1 hredundant)]
        · simp [MentionsIn]
    rw [show spliceEach (item :: rest) = spliced item ++ spliceEach rest from rfl,
      mentionsIn_append, hitem, ih h.2, MentionsIn]

mutual

theorem spliceBelow_mentions (hidle : ∀ frame items, p frame →
    isRedundant (.group frame items) = true → ¬ q frame) : ∀ (item : Item) (depth : ℤ),
    Every (fun frame items ↦ p frame ∧ frame.HasList items) item →
    (spliceBelow limit depth item).fault? = none →
      (Mentions q token (spliceBelow limit depth item).value ↔ Mentions q token item)
  | .leaf _, _, _, _ => Iff.rfl
  | .group frame items, depth, h, hfault => by
    obtain ⟨⟨hframe, hlist⟩, hitems⟩ := h
    rw [spliceBelow] at hfault ⊢
    rcases hlist with hlisted | ⟨habsent, rfl⟩
    · rw [hlisted] at hfault ⊢
      obtain ⟨hcheck, hfault⟩ := Progress.fault?_guarded_eq_none.mp hfault
      have hbelow : (spliceItems limit (depth + 1) items).fault? = none := by
        cases hnone : (spliceItems limit (depth + 1) items).fault? with
        | none => rfl
        | some fault => simp [hnone] at hfault
      have hevery := (spliceItems_leaves (fun _ ↦ ()) (fun _ ↦ false) (fun _ _ _ _ ↦ rfl) limit
        items (depth + 1) hitems hbelow).1
      have hsame := spliceItems_mentions hidle items (depth + 1) hitems hbelow
      simp only [hcheck, hbelow, Progress.guarded_none, Option.isNone_none, if_true,
        Progress.value_map]
      rw [Mentions, Mentions, spliceEach_mentions hidle hevery, hsame]
    · rw [habsent]
      exact Iff.rfl

theorem spliceItems_mentions (hidle : ∀ frame items, p frame →
    isRedundant (.group frame items) = true → ¬ q frame) : ∀ (items : List Item) (depth : ℤ),
    EveryIn (fun frame items ↦ p frame ∧ frame.HasList items) items →
    (spliceItems limit depth items).fault? = none →
      (MentionsIn q token (spliceItems limit depth items).value ↔ MentionsIn q token items)
  | [], _, _, _ => Iff.rfl
  | item :: rest, depth, h, hfault => by
    obtain ⟨hfirst, hrest⟩ := Progress.fault?_cons_eq_none.mp hfault
    rw [spliceItems, Progress.value_cons hfirst, MentionsIn, MentionsIn,
      spliceBelow_mentions hidle item depth h.1 hfirst,
      spliceItems_mentions hidle rest depth h.2 hrest]

end

end Splicing

end Walks

end Item

end Motion
