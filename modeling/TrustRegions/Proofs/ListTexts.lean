import Mathlib.Logic.Basic
import Mathlib.Tactic.Lemma
import TrustRegions.Attribute

/-! The text of a list is its items with a separator between each two neighbours, but for the separators
that the empty items at its front do not get. -/

namespace TrustRegions

lemma Bytes.intercalate_append_cons (sep text item : Bytes) (items : List Bytes) :
    sep.intercalate ((text ++ item) :: items) = text ++ sep.intercalate (item :: items) := by
  induction text with
  | nil => rfl
  | cons c text ih => rw [List.cons_append, List.intercalate_cons_cons_left, ih, List.cons_append]

namespace Attribute.Value

variable {text item : Bytes} {items : List Bytes}

/-- The separators between the items of a list that its text lacks: none goes before an item as long as there
is no text. -/
def lostSeparators (items : List Bytes) : Nat := min (items.takeWhile (·.isEmpty)).length (items.length - 1)

lemma addItem_of_ne_nil (h : text ≠ []) (item : Bytes) :
    addItem text item = text ++ separator ++ item := by
  rw [addItem, if_neg (mt List.isEmpty_iff.mp h)]

lemma foldl_addItem (h : text ≠ []) (items : List Bytes) :
    items.foldl addItem text = separator.intercalate (text :: items) := by
  induction items generalizing text with
  | nil => exact List.intercalate_singleton.symm
  | cons item items ih =>
    have hne : text ++ separator ++ item ≠ [] := by simp [h]
    rw [List.foldl_cons, addItem_of_ne_nil h, ih hne, Bytes.intercalate_append_cons,
      List.intercalate_cons_cons]

lemma joined_nil_cons (items : List Bytes) : joined ([] :: items) = joined items := rfl

lemma joined_cons (h : item ≠ []) (items : List Bytes) :
    joined (item :: items) = separator.intercalate (item :: items) := foldl_addItem h items

lemma lostSeparators_nil_cons (item : Bytes) (items : List Bytes) :
    lostSeparators ([] :: item :: items) = lostSeparators (item :: items) + 1 := by
  rw [lostSeparators, List.takeWhile_cons_of_pos List.isEmpty_nil]
  exact Nat.succ_min_succ _ _

lemma lostSeparators_cons (h : item ≠ []) (items : List Bytes) : lostSeparators (item :: items) = 0 := by
  rw [lostSeparators, List.takeWhile_cons_of_neg (mt List.isEmpty_iff.mp h), List.length_nil, Nat.zero_min]

lemma lostSeparators_eq_zero_iff : lostSeparators items = 0 ↔ items.length ≤ 1 ∨ items.head? ≠ some [] := by
  rcases items with _ | ⟨item, _ | ⟨next, items⟩⟩
  · simp [lostSeparators]
  · simp [lostSeparators]
  · rcases eq_or_ne item [] with rfl | h
    · simp [lostSeparators_nil_cons]
    · simp [lostSeparators_cons h, h]

lemma intercalate_eq (items : List Bytes) :
    separator.intercalate items = (List.replicate (lostSeparators items) separator).flatten ++ joined items := by
  induction items with
  | nil => rfl
  | cons item items ih =>
    rcases eq_or_ne item [] with rfl | h
    · cases items with
      | nil => rfl
      | cons next items =>
        rw [List.intercalate_cons_cons, ih, lostSeparators_nil_cons, joined_nil_cons, List.replicate_succ,
          List.flatten_cons, List.nil_append, List.append_assoc]
    · rw [lostSeparators_cons h, joined_cons h]
      rfl

lemma flatten_replicate_separator_eq_nil_iff (n : Nat) :
    (List.replicate n separator).flatten = [] ↔ n = 0 := by
  cases n with
  | zero => simp
  | succ n => simp [List.replicate_succ, separator, ascii]

/-- The items of a list with a comma and a space between each two neighbours are its text behind the separators
that got lost: one for each item in front of the first one with a byte, but one less if no item has any. So the
text has every separator just if the list has no neighbours, or a byte in its first item. -/
theorem text_list_eq_intercalate_iff (items : List Bytes) :
    separator.intercalate items =
        (List.replicate (lostSeparators items) separator).flatten ++ (list items).text ∧
      ((list items).text = separator.intercalate items ↔ items.length ≤ 1 ∨ items.head? ≠ some []) := by
  have h := intercalate_eq items
  refine ⟨h, ?_⟩
  calc (list items).text = separator.intercalate items
      ↔ (List.replicate (lostSeparators items) separator).flatten = [] := by
        rw [h]
        exact List.self_eq_append_left
    _ ↔ lostSeparators items = 0 := flatten_replicate_separator_eq_nil_iff _
    _ ↔ items.length ≤ 1 ∨ items.head? ≠ some [] := lostSeparators_eq_zero_iff

example : (list [[], ascii "a", [], ascii "b"]).text = ascii "a, , b" := by decide

end Attribute.Value

end TrustRegions
