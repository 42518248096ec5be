import BatteryOS.Library.OrderedSet
import BatteryOS.Library.Truncation

/-! The event queue of a battery. `EventSet` keeps events in the order of the
source's `operator<`, which compares time, then event kind with the higher kind
first, then sequence number, and looks at neither name nor current. The
constructor of `event_t` takes its current as an `int64_t`, so every event current
is an integer; doubles elsewhere are exact rationals. -/

namespace BatteryOS.V3

inductive EventID
  | refresh
  | setCurrentEnd
  | setCurrentBegin
  | cancelSetCurrentEvent
deriving DecidableEq, Repr

/-- The numbering of the enumeration, which the sort order uses. -/
def EventID.toInt : EventID → ℤ
  | .refresh => 0
  | .setCurrentEnd => 1
  | .setCurrentBegin => 2
  | .cancelSetCurrentEvent => 3

theorem EventID.toInt_injective : Function.Injective EventID.toInt := by
  intro a b h
  cases a <;> cases b <;> simp_all [EventID.toInt]

structure Event where
  eventID : EventID
  currentMA : ℤ
  eventTime : ℤ
  batteryName : String
  sequenceNumber : ℕ
deriving DecidableEq, Repr

namespace Event

def lt (lhs rhs : Event) : Prop :=
  if lhs.eventTime ≠ rhs.eventTime then lhs.eventTime < rhs.eventTime
  else if lhs.eventID ≠ rhs.eventID then lhs.eventID.toInt > rhs.eventID.toInt
  else lhs.sequenceNumber < rhs.sequenceNumber

/-- The key by which `operator<` compares; two events with one key are one event to the set. -/
def key (e : Event) : ℤ ×ₗ ℤ ×ₗ ℕ :=
  toLex (e.eventTime, toLex (-e.eventID.toInt, e.sequenceNumber))

theorem key_lt_iff {x y : Event} : x.key < y.key ↔
    x.eventTime < y.eventTime ∨ x.eventTime = y.eventTime ∧
      (y.eventID.toInt < x.eventID.toInt ∨
        x.eventID = y.eventID ∧ x.sequenceNumber < y.sequenceNumber) := by
  simp only [key, Prod.Lex.toLex_lt_toLex, neg_lt_neg_iff, neg_inj, EventID.toInt_injective.eq_iff]

theorem lt_iff_key_lt (x y : Event) : x.lt y ↔ x.key < y.key := by
  have inj : x.eventID.toInt = y.eventID.toInt ↔ x.eventID = y.eventID :=
    EventID.toInt_injective.eq_iff
  rw [key_lt_iff, lt]
  split_ifs with ht hid <;> grind

theorem key_eq_iff {x y : Event} : x.key = y.key ↔
    x.eventTime = y.eventTime ∧ x.eventID = y.eventID ∧ x.sequenceNumber = y.sequenceNumber := by
  simp [key, EventID.toInt_injective.eq_iff]

theorem key_le_iff {x y : Event} : x.key ≤ y.key ↔
    x.eventTime < y.eventTime ∨ x.eventTime = y.eventTime ∧
      (y.eventID.toInt < x.eventID.toInt ∨
        x.eventID = y.eventID ∧ x.sequenceNumber ≤ y.sequenceNumber) := by
  simp only [key, Prod.Lex.toLex_le_toLex, neg_lt_neg_iff, neg_inj, EventID.toInt_injective.eq_iff]

theorem eventTime_le_of_key_le {x y : Event} (h : x.key ≤ y.key) : x.eventTime ≤ y.eventTime := by
  rw [key_le_iff] at h
  omega

end Event

abbrev EventSet := OrderedSet Event.key

structure EventPair where
  first : Event
  second : Event
deriving DecidableEq, Repr

abbrev EventMap := OrderedMap ℕ EventPair

/-- Conversion of a `double` to `int64_t`, towards zero. -/
abbrev truncate (x : ℚ) : ℤ := Truncation.truncate x

theorem truncate_mem (x : ℚ) :
    0 ≤ x ∧ 0 ≤ (truncate x : ℚ) ∧ (truncate x : ℚ) ≤ x ∨
      x ≤ 0 ∧ x ≤ (truncate x : ℚ) ∧ (truncate x : ℚ) ≤ 0 := by
  rcases le_total 0 x with h | h
  · exact .inl ⟨h, Int.cast_nonneg (Truncation.truncate_nonneg h), Truncation.truncate_le h⟩
  · have neg : 0 ≤ -x := neg_nonneg.mpr h
    have below := Truncation.truncate_le neg
    have above : (0 : ℚ) ≤ Truncation.truncate (-x) :=
      Int.cast_nonneg (Truncation.truncate_nonneg neg)
    rw [Truncation.truncate_neg, Int.cast_neg] at below above
    exact .inr ⟨h, neg_le_neg_iff.mp below, neg_nonneg.mp above⟩

end BatteryOS.V3
