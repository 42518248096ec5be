import Mathlib.Algebra.BigOperators.Group.Finset.Basic
import Mathlib.Algebra.Order.BigOperators.Group.Finset
import BatteryOS.V3.Server

/-! Schedules that are aggregated in secret: a client hands one share to the battery and one to the
aggregator, and these two exchange messages. Both serve one message at a time and wait in the midst
of it. The battery has connected to the aggregator; connections stay open and deliver in order. The
library that computes on shares, which is linked as a binary, is an argument, and so is what
clients send. -/

namespace BatteryOS.V3

namespace Bosproto

/-- `command.set_schedule().my_schedule()`, which is empty where none is set. -/
def BatteryCommand.mySchedule (command : BatteryCommand) : List UInt8 :=
  match command.scheduleParameters with
  | some (.setSchedule mySchedule) => mySchedule
  | _ => []

end Bosproto

/-- The library of the aggregator. A call hands byte strings to its callback, in order. -/
structure AggregatorLibrary (ρ : Type) where
  newAggregator : ρ
  aggregate : ρ → (inputShare : List UInt8) → (clientNum : UInt32) → List (List UInt8) × ρ
  aggFinishRound : ρ → (inputShare : List UInt8) → List (List UInt8) × ρ
  sendAggShare : ρ → List (List UInt8) × ρ

structure CollectorLibrary (κ : Type) where
  newCollector : κ
  aggregateColl : κ → (inputShare : List UInt8) → (clientNum : UInt32) → κ
  addPrep : κ → (prepShare : List UInt8) → κ
  performRound : κ → List (List UInt8) × κ
  aggregateFinishColl : κ → (prepShare : List UInt8) → κ
  collect : κ → (prepShare : List UInt8) → κ

/-- What a client writes: `none` cannot be parsed. -/
abbrev ClientMessage := Option Bosproto.BatteryCommand

def ClientMessage.mySchedule (message : ClientMessage) : List UInt8 :=
  (message.map Bosproto.BatteryCommand.mySchedule).getD []

/-- The aggregator, and the connection whose handler waits for one more message. -/
structure Aggregator (ρ : Type) where
  rustAgg : ρ
  clientNum : UInt32
  waitsOn : Option ℕ

/-- Where `set_schedule` waits for the aggregator. -/
inductive SetSchedulePhase
  | idle
  | prep
  | outShare
  | aggShare
deriving DecidableEq

structure SecureBattery (κ : Type) where
  rustColl : κ
  clientNum : UInt32
  phase : SetSchedulePhase
  /-- what it has written to the aggregator -/
  written : List (List UInt8)
  /-- how many calls of `set_schedule` have come back -/
  returned : ℕ

namespace Aggregator

variable {ρ : Type} (library : AggregatorLibrary ρ)

def start : Aggregator ρ := ⟨library.newAggregator, 0, none⟩

/-- The handler of a client's connection up to its second read. -/
def handle (agg : Aggregator ρ) (connection : ℕ) (message : ClientMessage) :
    List (List UInt8) × Aggregator ρ :=
  match message with
  | none => ([], agg)
  | some command =>
    if command.command ≠ .setSchedule then ([], agg)
    else
      let (sent, rustAgg) := library.aggregate agg.rustAgg command.mySchedule agg.clientNum
      (sent, ⟨rustAgg, agg.clientNum + 1, some connection⟩)

/-- The second read, which is not tested, and the rest of the handler. -/
def finish (agg : Aggregator ρ) (message : ClientMessage) : List (List UInt8) × Aggregator ρ :=
  let (out, rustAgg) := library.aggFinishRound agg.rustAgg message.mySchedule
  let (share, rustAgg) := library.sendAggShare rustAgg
  (out ++ share, { agg with rustAgg := rustAgg, waitsOn := none })

end Aggregator

namespace SecureBattery

variable {κ : Type} (library : CollectorLibrary κ)

def start : SecureBattery κ := ⟨library.newCollector, 0, .idle, [], 0⟩

/-- `set_schedule` up to its first read. -/
def setSchedule (bat : SecureBattery κ) (buffer : List UInt8) : SecureBattery κ :=
  { bat with
    rustColl := library.aggregateColl bat.rustColl buffer bat.clientNum
    clientNum := bat.clientNum + 1
    phase := .prep }

/-- A read of `set_schedule`, up to the next. -/
def receive (bat : SecureBattery κ) (message : List UInt8) : SecureBattery κ :=
  match bat.phase with
  | .idle => bat
  | .prep =>
    let (round, rustColl) := library.performRound (library.addPrep bat.rustColl message)
    { bat with rustColl := rustColl, phase := .outShare, written := bat.written ++ round }
  | .outShare =>
    { bat with
      rustColl := library.aggregateFinishColl bat.rustColl message
      phase := .aggShare }
  | .aggShare =>
    { bat with
      rustColl := library.collect bat.rustColl message
      phase := .idle
      returned := bat.returned + 1 }

def call (bat : SecureBattery κ) (buffer : List UInt8) (messages : List (List UInt8)) :
    SecureBattery κ :=
  messages.foldl (receive library) (bat.setSchedule library buffer)

end SecureBattery

/-- Both sides and what is under way. The clients' connections to the aggregator are numbered in
the order in which they are accepted; only the last one is kept. -/
structure SecureSystem (ρ κ : Type) where
  aggregator : Aggregator ρ
  battery : SecureBattery κ
  toBattery : List (List UInt8)
  accepted : ℕ
  inbox : ℕ → List ClientMessage

inductive SecureEvent
  | clientSends (connection : ℕ) (message : ClientMessage)
  /-- the aggregator accepts a connection -/
  | accept
  /-- the aggregator serves the connection, up to its second read -/
  | handle
  /-- it has a second message -/
  | finish
  /-- the server serves a schedule for the battery -/
  | setSchedule (buffer : List UInt8)
  /-- the battery has a message of the aggregator -/
  | receive

namespace SecureSystem

variable {ρ κ : Type} (aggLibrary : AggregatorLibrary ρ) (collLibrary : CollectorLibrary κ)

def start : SecureSystem ρ κ where
  aggregator := Aggregator.start aggLibrary
  battery := SecureBattery.start collLibrary
  toBattery := []
  accepted := 0
  inbox _ := []

def clientConnection (s : SecureSystem ρ κ) : Option ℕ :=
  if s.accepted = 0 then none else some (s.accepted - 1)

def step (s : SecureSystem ρ κ) : SecureEvent → Option (SecureSystem ρ κ)
  | .clientSends connection message =>
    some { s with
      inbox := Function.update s.inbox connection (s.inbox connection ++ [message]) }
  | .accept =>
    if s.aggregator.waitsOn = none then some { s with accepted := s.accepted + 1 } else none
  | .handle => do
    guard (s.aggregator.waitsOn = none)
    let connection ← s.clientConnection
    let message ← (s.inbox connection).head?
    let (sent, aggregator) := s.aggregator.handle aggLibrary connection message
    return { s with
      aggregator := aggregator
      toBattery := s.toBattery ++ sent
      inbox := Function.update s.inbox connection (s.inbox connection).tail }
  | .finish => do
    let connection ← s.aggregator.waitsOn
    let message ← (s.inbox connection).head?
    let (sent, aggregator) := s.aggregator.finish aggLibrary message
    return { s with
      aggregator := aggregator
      toBattery := s.toBattery ++ sent
      inbox := Function.update s.inbox connection (s.inbox connection).tail }
  | .setSchedule buffer =>
    if s.battery.phase = .idle then
      some { s with battery := s.battery.setSchedule collLibrary buffer }
    else none
  | .receive =>
    if s.battery.phase = .idle then none
    else do
      let message ← s.toBattery.head?
      return { s with
        battery := s.battery.receive collLibrary message
        toBattery := s.toBattery.tail }

end SecureSystem

/-- The messages that the battery reads: one for the preparation, an output share, an aggregate. -/
structure AggregatorLibrary.Single {ρ : Type} (library : AggregatorLibrary ρ) : Prop where
  aggregate : ∀ rustAgg share clientNum, (library.aggregate rustAgg share clientNum).1.length = 1
  aggFinishRound : ∀ rustAgg share, (library.aggFinishRound rustAgg share).1.length = 1
  sendAggShare : ∀ rustAgg, (library.sendAggShare rustAgg).1.length = 1

/-- What a handler of the aggregator works on: a schedule, and the message that it takes for the
answer of the battery, which is the next one of the same client. -/
structure Round where
  connection : ℕ
  share : Bosproto.BatteryCommand
  answer : ClientMessage
  isSchedule : share.command = .setSchedule

def Round.messages (round : Round) : List ClientMessage := [some round.share, round.answer]

namespace Aggregator

variable {ρ : Type} (library : AggregatorLibrary ρ)

def round (agg : Aggregator ρ) (round : Round) : List (List UInt8) × Aggregator ρ :=
  let (first, agg) := agg.handle library round.connection (some round.share)
  let (others, agg) := agg.finish library round.answer
  (first ++ others, agg)

def rounds (agg : Aggregator ρ) : List Round → List (List (List UInt8)) × Aggregator ρ
  | [] => ([], agg)
  | first :: rest =>
    let (sent, agg) := agg.round library first
    let (others, agg) := agg.rounds rest
    (sent :: others, agg)

def begun (agg : Aggregator ρ) (pending : Option (ℕ × Bosproto.BatteryCommand)) :
    List (List UInt8) × Aggregator ρ :=
  match pending with
  | none => ([], agg)
  | some (connection, share) => agg.handle library connection (some share)

variable {library} {agg : Aggregator ρ}

theorem handle_of_schedule {connection : ℕ} {share : Bosproto.BatteryCommand}
    (isSchedule : share.command = .setSchedule) :
    agg.handle library connection (some share) =
      ((library.aggregate agg.rustAgg share.mySchedule agg.clientNum).1,
        ⟨(library.aggregate agg.rustAgg share.mySchedule agg.clientNum).2, agg.clientNum + 1,
          some connection⟩) := by
  rw [handle, if_neg (not_not.mpr isSchedule)]

theorem rounds_concat (before : List Round) (last : Round) :
    agg.rounds library (before ++ [last]) =
      ((agg.rounds library before).1 ++ [((agg.rounds library before).2.round library last).1],
        ((agg.rounds library before).2.round library last).2) := by
  induction before generalizing agg with
  | nil => rfl
  | cons first rest ih => simp only [List.cons_append, rounds, ih]

theorem waitsOn_rounds (idle : agg.waitsOn = none) (rs : List Round) :
    (agg.rounds library rs).2.waitsOn = none := by
  induction rs generalizing agg with
  | nil => exact idle
  | cons first rest ih =>
      rw [rounds]
      exact ih rfl

theorem waitsOn_begun (idle : agg.waitsOn = none)
    {pending : Option (ℕ × Bosproto.BatteryCommand)}
    (isSchedule : ∀ p ∈ pending, p.2.command = .setSchedule) :
    (agg.begun library pending).2.waitsOn = pending.map Prod.fst := by
  cases pending with
  | none => exact idle
  | some p => rw [begun, handle_of_schedule (isSchedule p rfl), Option.map_some]

theorem round_length (single : library.Single) (r : Round) :
    (agg.round library r).1.length = 3 := by
  simp only [round, handle_of_schedule r.isSchedule, finish, List.length_append,
    single.aggregate, single.aggFinishRound, single.sendAggShare]

theorem rounds_length (single : library.Single) (rs : List Round) :
    (agg.rounds library rs).1.length = rs.length ∧
      ∀ sent ∈ (agg.rounds library rs).1, sent.length = 3 := by
  induction rs generalizing agg with
  | nil => exact ⟨rfl, fun sent h => (by cases h)⟩
  | cons first rest ih =>
      obtain ⟨count, each⟩ := @ih (agg.round library first).2
      refine ⟨congrArg (· + 1) count, fun sent h => ?_⟩
      rcases List.mem_cons.mp h with rfl | later
      · exact round_length single first
      · exact each sent later

end Aggregator

namespace SecureBattery

variable {κ : Type} (library : CollectorLibrary κ)

def calls (bat : SecureBattery κ) (calls : List (List UInt8 × List (List UInt8))) :
    SecureBattery κ :=
  calls.foldl (fun bat call => bat.call library call.1 call.2) bat

def begun (bat : SecureBattery κ) (opened : Option (List UInt8 × List (List UInt8))) :
    SecureBattery κ :=
  match opened with
  | none => bat
  | some (buffer, messages) => bat.call library buffer messages

variable {library} {bat : SecureBattery κ}

theorem call_concat (buffer : List UInt8) (messages : List (List UInt8)) (last : List UInt8) :
    bat.call library buffer (messages ++ [last]) =
      (bat.call library buffer messages).receive library last := by
  rw [call, List.foldl_concat, call]

theorem call_of_three (buffer : List UInt8) {messages : List (List UInt8)}
    (three : messages.length = 3) : (bat.call library buffer messages).phase = .idle ∧
      (bat.call library buffer messages).returned = bat.returned + 1 := by
  obtain ⟨prep, out, share, rfl⟩ := List.length_eq_three.mp three
  exact ⟨rfl, rfl⟩

theorem call_of_lt (buffer : List UInt8) {messages : List (List UInt8)}
    (part : messages.length < 3) : (bat.call library buffer messages).phase ≠ .idle ∧
      (bat.call library buffer messages).returned = bat.returned := by
  match messages, part with
  | [], _ => exact ⟨nofun, rfl⟩
  | [prep], _ => exact ⟨nofun, rfl⟩
  | [prep, out], _ => exact ⟨nofun, rfl⟩

theorem calls_spec (idle : bat.phase = .idle) {cs : List (List UInt8 × List (List UInt8))}
    (whole : ∀ call ∈ cs, call.2.length = 3) : (bat.calls library cs).phase = .idle ∧
      (bat.calls library cs).returned = bat.returned + cs.length := by
  induction cs generalizing bat with
  | nil => exact ⟨idle, rfl⟩
  | cons first rest ih =>
      obtain ⟨phase, returned⟩ := @call_of_three κ library bat first.1 first.2
        (whole first List.mem_cons_self)
      obtain ⟨later, count⟩ := ih phase fun call h => whole call (List.mem_cons_of_mem _ h)
      rw [returned] at count
      refine ⟨later, count.trans ?_⟩
      rw [List.length_cons]
      omega

end SecureBattery

namespace SecureEvent

def messageOn (connection : ℕ) : SecureEvent → Option ClientMessage
  | .clientSends c message => if c = connection then some message else none
  | _ => none

/-- The share of the schedule that the battery gets, if it is that event. -/
def buffer : SecureEvent → Option (List UInt8)
  | .setSchedule buffer => some buffer
  | _ => none

def sentOn (events : List SecureEvent) (connection : ℕ) : List ClientMessage :=
  events.filterMap (messageOn connection)

def buffers (events : List SecureEvent) : List (List UInt8) := events.filterMap buffer

end SecureEvent

namespace SecureSystem

variable {ρ κ : Type} {aggLibrary : AggregatorLibrary ρ} {collLibrary : CollectorLibrary κ}

open SecureEvent

def takenFrom (rounds : List Round) (pending : Option (ℕ × Bosproto.BatteryCommand))
    (connection : ℕ) : List ClientMessage :=
  (rounds.filter fun r => r.connection = connection).flatMap Round.messages ++
    ((pending.filter fun p => p.1 = connection).map fun p => some p.2).toList

/-- A state with what has led to it: the rounds of the aggregator and one that it is in, the calls
of the battery with what they have read, and one that it is in. -/
structure Explains (aggLibrary : AggregatorLibrary ρ) (collLibrary : CollectorLibrary κ)
    (events : List SecureEvent) (s : SecureSystem ρ κ) (rounds : List Round)
    (pending : Option (ℕ × Bosproto.BatteryCommand))
    (calls : List (List UInt8 × List (List UInt8)))
    (opened : Option (List UInt8 × List (List UInt8))) : Prop where
  aggregator : s.aggregator =
    (((Aggregator.start aggLibrary).rounds aggLibrary rounds).2.begun aggLibrary pending).2
  isSchedule : ∀ p ∈ pending, p.2.command = .setSchedule
  battery : s.battery =
    ((SecureBattery.start collLibrary).calls collLibrary calls).begun collLibrary opened
  whole : ∀ call ∈ calls, call.2.length = 3
  part : ∀ call ∈ opened, call.2.length < 3
  stream : ((Aggregator.start aggLibrary).rounds aggLibrary rounds).1.flatten ++
      (((Aggregator.start aggLibrary).rounds aggLibrary rounds).2.begun aggLibrary pending).1 =
    (calls ++ opened.toList).flatMap Prod.snd ++ s.toBattery
  buffers : (calls ++ opened.toList).map Prod.fst = buffers events
  inOrder : ∀ c, ∃ read, sentOn events c = read ++ s.inbox c ∧
    (takenFrom rounds pending c).Sublist read
  accepted : (∀ r ∈ rounds, r.connection < s.accepted) ∧ ∀ p ∈ pending, p.1 < s.accepted

theorem explains_start :
    Explains aggLibrary collLibrary [] (start aggLibrary collLibrary) [] none [] none where
  aggregator := rfl
  isSchedule p h := by cases h
  battery := rfl
  whole call h := by cases h
  part call h := by cases h
  stream := rfl
  buffers := rfl
  inOrder c := ⟨[], rfl, List.Sublist.refl _⟩
  accepted := ⟨fun r h => (by cases h), fun p h => (by cases h)⟩

variable {events : List SecureEvent} {event : SecureEvent} {s s' : SecureSystem ρ κ}
  {rounds : List Round} {pending : Option (ℕ × Bosproto.BatteryCommand)}
  {calls : List (List UInt8 × List (List UInt8))}
  {opened : Option (List UInt8 × List (List UInt8))}

theorem Explains.waitsOn
    (h : Explains aggLibrary collLibrary events s rounds pending calls opened) :
    s.aggregator.waitsOn = pending.map Prod.fst := by
  rw [h.aggregator]
  exact Aggregator.waitsOn_begun (Aggregator.waitsOn_rounds rfl rounds) h.isSchedule

theorem Explains.phase_iff
    (h : Explains aggLibrary collLibrary events s rounds pending calls opened) :
    s.battery.phase = .idle ↔ opened = none := by
  have idle := (@SecureBattery.calls_spec κ collLibrary (SecureBattery.start collLibrary) rfl calls
    h.whole).1
  rw [h.battery]
  cases opened with
  | none => exact iff_of_true idle rfl
  | some call =>
      exact iff_of_false (SecureBattery.call_of_lt call.1 (h.part call rfl)).1 (by simp)

theorem sentOn_concat (c : ℕ) : sentOn (events ++ [event]) c =
    sentOn events c ++ (event.messageOn c).toList := by
  rw [sentOn, List.filterMap_append, sentOn, List.filterMap_cons]
  cases event.messageOn c <;> rfl

theorem buffers_concat : SecureEvent.buffers (events ++ [event]) =
    SecureEvent.buffers events ++ event.buffer.toList := by
  rw [SecureEvent.buffers, List.filterMap_append, SecureEvent.buffers, List.filterMap_cons]
  cases event.buffer <;> rfl

theorem buffers_of_none (none : event.buffer = none) :
    SecureEvent.buffers (events ++ [event]) = SecureEvent.buffers events := by
  rw [buffers_concat, none, Option.toList_none, List.append_nil]

/-! ### What an event adds -/

theorem Explains.idles
    (h : Explains aggLibrary collLibrary events s rounds pending calls opened)
    (aggregator : s'.aggregator = s.aggregator) (battery : s'.battery = s.battery)
    (toBattery : s'.toBattery = s.toBattery) (accepted : s.accepted ≤ s'.accepted)
    (buffer : event.buffer = none)
    (inbox : ∀ c, s'.inbox c = s.inbox c ++ (event.messageOn c).toList) :
    Explains aggLibrary collLibrary (events ++ [event]) s' rounds pending calls opened where
  aggregator := aggregator.trans h.aggregator
  isSchedule := h.isSchedule
  battery := battery.trans h.battery
  whole := h.whole
  part := h.part
  stream := by rw [toBattery, h.stream]
  buffers := h.buffers.trans (buffers_of_none buffer).symm
  inOrder c := by
    obtain ⟨read, sent, taken⟩ := h.inOrder c
    exact ⟨read, by rw [sentOn_concat, sent, inbox, List.append_assoc], taken⟩
  accepted := ⟨fun r hr => (h.accepted.1 r hr).trans_le accepted,
    fun p hp => (h.accepted.2 p hp).trans_le accepted⟩

theorem inOrder_read {connection : ℕ} {message : ClientMessage} {rest : List ClientMessage}
    {taken taken' : ℕ → List ClientMessage} {inbox : ℕ → List ClientMessage}
    (first : inbox connection = message :: rest)
    (inOrder : ∀ c, ∃ read, sentOn events c = read ++ inbox c ∧ (taken c).Sublist read)
    (nothing : ∀ c, event.messageOn c = none)
    (more : ∀ c, taken' c = taken c ∨ c = connection ∧ taken' c = taken c ++ [message]) (c : ℕ) :
    ∃ read, sentOn (events ++ [event]) c =
        read ++ Function.update inbox connection (inbox connection).tail c ∧
      (taken' c).Sublist read := by
  obtain ⟨read, sent, before⟩ := inOrder c
  rw [sentOn_concat, nothing, Option.toList_none, List.append_nil, sent]
  by_cases same : c = connection
  · subst same
    refine ⟨read ++ [message], by rw [Function.update_self, first]; simp, ?_⟩
    rcases more c with unchanged | ⟨-, extended⟩
    · rw [unchanged]
      exact before.trans (List.sublist_append_left _ _)
    · rw [extended]
      exact before.append (List.Sublist.refl _)
  · refine ⟨read, by rw [Function.update_of_ne same], ?_⟩
    rw [(more c).resolve_right fun h => same h.1]
    exact before

theorem clientConnection_lt {connection : ℕ} (current : s.clientConnection = some connection) :
    connection < s.accepted := by
  unfold clientConnection at current
  split_ifs at current with none
  obtain rfl := Option.some.inj current
  omega

theorem Explains.handle (h : Explains aggLibrary collLibrary events s rounds pending calls opened)
    (hstep : s.step aggLibrary collLibrary .handle = some s') :
    ∃ pending, Explains aggLibrary collLibrary (events ++ [.handle]) s' rounds pending calls
      opened := by
  simp only [step, Option.bind_eq_bind, Option.bind_eq_some_iff, Option.pure_def,
    Option.guard_eq_some'] at hstep
  obtain ⟨-, polls, connection, current, message, first, last⟩ := hstep
  obtain ⟨rest, first⟩ := List.head?_eq_some_iff.mp first
  obtain rfl : pending = none := by
    have waitsOn := h.waitsOn
    rw [polls] at waitsOn
    exact Option.map_eq_none_iff.mp waitsOn.symm
  obtain rfl := Option.some.inj last
  have buffers : (calls ++ opened.toList).map Prod.fst =
      SecureEvent.buffers (events ++ [SecureEvent.handle]) :=
    h.buffers.trans (buffers_of_none rfl).symm
  by_cases schedule : ∃ share, message = some share ∧ share.command = .setSchedule
  · -- the handler begins, and keeps the connection
    obtain ⟨share, rfl, isSchedule⟩ := schedule
    refine ⟨some (connection, share), ?_, ?_, h.battery, h.whole, h.part, ?_, buffers, ?_, ?_⟩
    · rw [h.aggregator]
      rfl
    · intro p hp
      obtain rfl := Option.some.inj hp
      exact isSchedule
    · rw [← List.append_assoc, ← h.stream, List.append_assoc, h.aggregator]
      rfl
    · refine inOrder_read first h.inOrder (fun _ => rfl) fun c => ?_
      by_cases same : c = connection
      · exact .inr ⟨same, by simp [takenFrom, same]⟩
      · exact .inl (by simp [takenFrom, Ne.symm same])
    · refine ⟨h.accepted.1, fun p hp => ?_⟩
      obtain rfl := Option.some.inj hp
      exact clientConnection_lt current
  · -- the message is read and dropped
    have dropped : s.aggregator.handle aggLibrary connection message = ([], s.aggregator) := by
      cases message with
      | none => rfl
      | some share => rw [Aggregator.handle, if_pos fun same => schedule ⟨share, rfl, same⟩]
    refine ⟨none, ?_, h.isSchedule, h.battery, h.whole, h.part, ?_, buffers, ?_, h.accepted⟩
    · rw [dropped]
      exact h.aggregator
    · rw [dropped, List.append_nil, h.stream]
    · exact inOrder_read first h.inOrder (fun _ => rfl) fun c => .inl rfl

theorem Explains.finish (h : Explains aggLibrary collLibrary events s rounds pending calls opened)
    (hstep : s.step aggLibrary collLibrary .finish = some s') :
    ∃ rounds, Explains aggLibrary collLibrary (events ++ [.finish]) s' rounds none calls
      opened := by
  simp only [step, Option.bind_eq_bind, Option.bind_eq_some_iff, Option.pure_def] at hstep
  obtain ⟨connection, waits, message, first, last⟩ := hstep
  obtain ⟨rest, first⟩ := List.head?_eq_some_iff.mp first
  rw [h.waitsOn, Option.map_eq_some_iff] at waits
  obtain ⟨⟨_, share⟩, rfl, same⟩ := waits
  obtain rfl : connection = _ := same.symm
  obtain rfl := Option.some.inj last
  have isSchedule := h.isSchedule _ rfl
  have agg := @Aggregator.rounds_concat ρ aggLibrary (Aggregator.start aggLibrary) rounds
    ⟨connection, share, message, isSchedule⟩
  refine ⟨rounds ++ [⟨connection, share, message, isSchedule⟩], ?_, fun p hp => (by cases hp),
    h.battery, h.whole, h.part, ?_, h.buffers.trans (buffers_of_none rfl).symm, ?_, ?_,
    fun p hp => (by cases hp)⟩
  · rw [agg, h.aggregator]
    rfl
  · rw [agg, ← List.append_assoc, ← h.stream, h.aggregator, List.flatten_append]
    simp only [Aggregator.begun, Aggregator.round, List.flatten_singleton, List.append_assoc,
      List.append_nil]
  · refine inOrder_read first h.inOrder (fun _ => rfl) fun c => ?_
    by_cases same : connection = c
    · exact .inr ⟨same.symm, by simp [takenFrom, same, Round.messages, Option.filter]⟩
    · exact .inl (by simp [takenFrom, same, Option.filter])
  · intro r hr
    rcases List.mem_append.mp hr with old | new
    · exact h.accepted.1 r old
    · rw [List.mem_singleton.mp new]
      exact h.accepted.2 _ rfl

theorem Explains.setSchedule
    (h : Explains aggLibrary collLibrary events s rounds pending calls opened)
    {buffer : List UInt8} (hstep : s.step aggLibrary collLibrary (.setSchedule buffer) = some s') :
    Explains aggLibrary collLibrary (events ++ [.setSchedule buffer]) s' rounds pending calls
      (some (buffer, [])) := by
  simp only [step] at hstep
  split_ifs at hstep with idle
  obtain rfl := h.phase_iff.mp idle
  obtain rfl := Option.some.inj hstep
  refine ⟨h.aggregator, h.isSchedule, ?_, h.whole, ?_, ?_, ?_, ?_, h.accepted⟩
  · rw [h.battery]
    rfl
  · intro call hcall
    obtain rfl := Option.some.inj hcall
    exact Nat.zero_lt_succ _
  · simpa using h.stream
  · have before := h.buffers
    rw [Option.toList_none, List.append_nil] at before
    rw [buffers_concat, ← before, Option.toList_some, List.map_append]
    rfl
  · intro c
    rw [sentOn_concat]
    simpa [messageOn] using h.inOrder c

theorem Explains.receive
    (h : Explains aggLibrary collLibrary events s rounds pending calls opened)
    (hstep : s.step aggLibrary collLibrary .receive = some s') :
    ∃ calls opened, Explains aggLibrary collLibrary (events ++ [.receive]) s' rounds pending calls
      opened := by
  simp only [step] at hstep
  split_ifs at hstep with idle
  simp only [Option.bind_eq_bind, Option.bind_eq_some_iff, Option.pure_def] at hstep
  obtain ⟨message, first, last⟩ := hstep
  obtain ⟨rest, first⟩ := List.head?_eq_some_iff.mp first
  obtain rfl := Option.some.inj last
  cases opened with
  | none => exact absurd (h.phase_iff.mpr rfl) idle
  | some call =>
      obtain ⟨buffer, messages⟩ := call
      have part : messages.length < 3 := h.part _ rfl
      have bat : s.battery.receive collLibrary message =
          ((SecureBattery.start collLibrary).calls collLibrary calls).call collLibrary buffer
            (messages ++ [message]) := by
        rw [SecureBattery.call_concat, h.battery]
        rfl
      have stream := h.stream
      simp only [first, Option.toList_some, List.flatMap_append, List.flatMap_singleton] at stream
      have buffers := h.buffers
      rw [← @buffers_of_none events .receive rfl] at buffers
      have inOrder (c : ℕ) : ∃ read, sentOn (events ++ [.receive]) c = read ++ s.inbox c ∧
          (takenFrom rounds pending c).Sublist read := by
        rw [sentOn_concat]
        simpa [messageOn] using h.inOrder c
      by_cases third : messages.length = 2
      · -- the call comes back
        refine ⟨calls ++ [(buffer, messages ++ [message])], none, h.aggregator, h.isSchedule, ?_,
          ?_, fun call hcall => (by cases hcall), ?_, ?_, inOrder, h.accepted⟩
        · rw [bat, SecureBattery.calls, SecureBattery.calls, List.foldl_concat]
          rfl
        · intro call hcall
          rcases List.mem_append.mp hcall with old | new
          · exact h.whole call old
          · rw [List.mem_singleton.mp new, List.length_append, third]
            rfl
        · rw [stream]
          simp [first]
        · simpa using buffers
      · refine ⟨calls, some (buffer, messages ++ [message]), h.aggregator, h.isSchedule, bat,
          h.whole, ?_, ?_, ?_, inOrder, h.accepted⟩
        · intro call hcall
          obtain rfl := Option.some.inj hcall
          rw [List.length_append, List.length_singleton]
          omega
        · rw [stream]
          simp [first]
        · simpa using buffers

theorem Explains.step (h : Explains aggLibrary collLibrary events s rounds pending calls opened)
    (hstep : s.step aggLibrary collLibrary event = some s') :
    ∃ rounds pending calls opened,
      Explains aggLibrary collLibrary (events ++ [event]) s' rounds pending calls opened := by
  cases event with
  | clientSends connection message =>
      obtain rfl := Option.some.inj hstep
      refine ⟨rounds, pending, calls, opened, h.idles rfl rfl rfl le_rfl rfl fun c => ?_⟩
      by_cases same : c = connection
      · subst same
        simp [messageOn]
      · simp [messageOn, same, Ne.symm same]
  | accept =>
      simp only [SecureSystem.step] at hstep
      split_ifs at hstep
      obtain rfl := Option.some.inj hstep
      exact ⟨rounds, pending, calls, opened, h.idles rfl rfl rfl (Nat.le_succ _) rfl
        fun c => (List.append_nil _).symm⟩
  | handle =>
      obtain ⟨pending, after⟩ := h.handle hstep
      exact ⟨rounds, pending, calls, opened, after⟩
  | finish =>
      obtain ⟨rounds, after⟩ := h.finish hstep
      exact ⟨rounds, none, calls, opened, after⟩
  | setSchedule buffer => exact ⟨rounds, pending, calls, _, h.setSchedule hstep⟩
  | receive =>
      obtain ⟨calls, opened, after⟩ := h.receive hstep
      exact ⟨rounds, pending, calls, opened, after⟩

theorem explains_of_exec
    (run : StepRun.exec (step aggLibrary collLibrary) (start aggLibrary collLibrary) events =
      some s) :
    ∃ rounds pending calls opened,
      Explains aggLibrary collLibrary events s rounds pending calls opened := by
  induction events using List.reverseRecOn generalizing s with
  | nil =>
      obtain rfl := Option.some.inj run
      exact ⟨[], none, [], none, explains_start⟩
  | append_singleton before event ih =>
      rw [StepRun.exec_concat, Option.bind_eq_some_iff] at run
      obtain ⟨s', first, last⟩ := run
      obtain ⟨rounds, pending, calls, opened, h⟩ := ih first
      exact h.step last

/-! ### Whole runs -/

theorem length_flatten_of_three {messages : List (List (List UInt8))}
    (each : ∀ m ∈ messages, m.length = 3) : messages.flatten.length = 3 * messages.length := by
  induction messages with
  | nil => rfl
  | cons first rest ih =>
      have three := each first List.mem_cons_self
      have others := ih fun m hm => each m (List.mem_cons_of_mem _ hm)
      simp only [List.flatten_cons, List.length_append, List.length_cons]
      omega

theorem flatten_inj_of_three {xs ys : List (List (List UInt8))} (hx : ∀ m ∈ xs, m.length = 3)
    (hy : ∀ m ∈ ys, m.length = 3) (same : xs.flatten = ys.flatten) : xs = ys := by
  have lengths (zs : List (List (List UInt8))) (hz : ∀ m ∈ zs, m.length = 3) :
      zs.map List.length = List.replicate zs.length 3 :=
    List.eq_replicate_iff.mpr ⟨List.length_map .., fun n hn => by
      obtain ⟨m, hm, rfl⟩ := List.mem_map.mp hn
      exact hz m hm⟩
  have count : xs.length = ys.length := by
    have total := congrArg List.length same
    rw [length_flatten_of_three hx, length_flatten_of_three hy] at total
    omega
  exact List.eq_iff_flatten_eq.mpr ⟨same, by rw [lengths xs hx, lengths ys hy, count]⟩

/-- A round of the aggregator and a call of the battery, one after the other. -/
def exchange (aggLibrary : AggregatorLibrary ρ) (collLibrary : CollectorLibrary κ)
    (state : Aggregator ρ × SecureBattery κ) (next : Round × List UInt8) :
    Aggregator ρ × SecureBattery κ :=
  let (messages, aggregator) := state.1.round aggLibrary next.1
  (aggregator, state.2.call collLibrary next.2 messages)

theorem foldl_exchange (agg : Aggregator ρ) (bat : SecureBattery κ) {rounds : List Round}
    {buffers : List (List UInt8)} (same : rounds.length = buffers.length) :
    (rounds.zip buffers).foldl (exchange aggLibrary collLibrary) (agg, bat) =
      ((agg.rounds aggLibrary rounds).2,
        bat.calls collLibrary (buffers.zip (agg.rounds aggLibrary rounds).1)) := by
  induction rounds generalizing agg bat buffers with
  | nil =>
      obtain rfl := List.length_eq_zero_iff.mp same.symm
      rfl
  | cons first rest ih =>
      cases buffers with
      | nil => cases same
      | cons buffer others =>
          rw [List.zip_cons_cons, List.foldl_cons, exchange, ih _ _ (Nat.succ.inj same)]
          rfl

/-- No side is in the midst of a message, and the aggregator's messages have been read. -/
def AtRest (s : SecureSystem ρ κ) : Prop :=
  s.aggregator.waitsOn = none ∧ s.battery.phase = .idle ∧ s.toBattery = []

instance (s : SecureSystem ρ κ) : Decidable s.AtRest :=
  inferInstanceAs (Decidable (_ ∧ _ ∧ _))

/-- However the two sides and the clients interleave, at rest they are where they would be had each
call of the battery been made together with one round of the aggregator. The rounds go with the
calls in their order, whosever shares these are; each takes two messages of one client, and none
of the battery. -/
theorem atRest_eq_exchanges (single : aggLibrary.Single)
    (run : StepRun.exec (step aggLibrary collLibrary) (start aggLibrary collLibrary) events =
      some s) (rest : s.AtRest) :
    ∃ rounds : List Round, rounds.length = (SecureEvent.buffers events).length ∧
      (s.aggregator, s.battery) =
        (rounds.zip (SecureEvent.buffers events)).foldl (exchange aggLibrary collLibrary)
          (Aggregator.start aggLibrary, SecureBattery.start collLibrary) ∧
      ∀ c, ((rounds.filter fun r => r.connection = c).flatMap Round.messages).Sublist
        (sentOn events c) := by
  obtain ⟨rounds, pending, calls, opened, h⟩ := explains_of_exec run
  obtain ⟨polls, idle, read⟩ := rest
  obtain rfl := h.phase_iff.mp idle
  obtain rfl : pending = none := by
    rw [h.waitsOn] at polls
    exact Option.map_eq_none_iff.mp polls
  obtain ⟨count, each⟩ :=
    @Aggregator.rounds_length ρ aggLibrary (Aggregator.start aggLibrary) single rounds
  have messages : ((Aggregator.start aggLibrary).rounds aggLibrary rounds).1 =
      calls.map Prod.snd := by
    refine flatten_inj_of_three each (fun m hm => ?_) ?_
    · obtain ⟨call, hcall, rfl⟩ := List.mem_map.mp hm
      exact h.whole call hcall
    · have stream := h.stream
      rw [read] at stream
      simpa [Aggregator.begun, List.flatMap_def] using stream
  have buffers : calls.map Prod.fst = SecureEvent.buffers events := by
    simpa using h.buffers
  have same : rounds.length = (SecureEvent.buffers events).length := by
    rw [← count, messages, ← buffers, List.length_map, List.length_map]
  refine ⟨rounds, same, ?_, fun c => ?_⟩
  · rw [foldl_exchange _ _ same, messages, ← List.zip_of_prod buffers rfl, h.aggregator, h.battery]
    rfl
  · obtain ⟨read, sent, taken⟩ := h.inOrder c
    rw [sent]
    refine List.Sublist.trans ?_ (taken.trans (List.sublist_append_left _ _))
    exact List.sublist_append_left _ _

def markingAggregator : AggregatorLibrary Unit where
  newAggregator := ()
  aggregate _ share _ := ([0 :: share], ())
  aggFinishRound _ share := ([1 :: share], ())
  sendAggShare _ := ([[2]], ())

def listingCollector : CollectorLibrary (List (List UInt8)) where
  newCollector := []
  aggregateColl seen share _ := seen ++ [share]
  addPrep seen share := seen ++ [share]
  performRound seen := ([[3]], seen)
  aggregateFinishColl seen share := seen ++ [share]
  collect seen share := seen ++ [share]

theorem markingAggregator_single : markingAggregator.Single :=
  ⟨fun _ _ _ => rfl, fun _ _ => rfl, fun _ => rfl⟩

def schedule (share : List UInt8) : ClientMessage :=
  some ⟨.setSchedule, some (.setSchedule share)⟩

def twoSchedules : List SecureEvent :=
  [.accept, .clientSends 0 (schedule [5]), .setSchedule [6], .handle, .receive,
    .clientSends 0 (schedule [7]), .finish, .receive, .receive]

theorem atRest_eq_exchanges_twoSchedules :
    ∃ s, StepRun.exec (step markingAggregator listingCollector)
        (start markingAggregator listingCollector) twoSchedules = some s ∧ s.AtRest ∧
      ∃ rounds : List Round, rounds.length = (SecureEvent.buffers twoSchedules).length ∧
        (s.aggregator, s.battery) =
          (rounds.zip (SecureEvent.buffers twoSchedules)).foldl
            (exchange markingAggregator listingCollector)
            (Aggregator.start markingAggregator, SecureBattery.start listingCollector) ∧
        ∀ c, ((rounds.filter fun r => r.connection = c).flatMap Round.messages).Sublist
          (sentOn twoSchedules c) := by
  obtain ⟨s, run, rest⟩ := Option.map_eq_some_iff.mp
    (show (StepRun.exec (step markingAggregator listingCollector)
      (start markingAggregator listingCollector) twoSchedules).map
        (fun s => decide s.AtRest) = some true by decide +kernel)
  exact ⟨s, run, of_decide_eq_true rest,
    atRest_eq_exchanges markingAggregator_single run (of_decide_eq_true rest)⟩

theorem rounds_length_eq {rounds : List Round} {n : ℕ} (below : ∀ r ∈ rounds, r.connection < n) :
    rounds.length = ∑ c ∈ Finset.range n, (rounds.filter fun r => r.connection = c).length := by
  induction rounds with
  | nil => simp
  | cons first rest ih =>
      have member := below first List.mem_cons_self
      have step (c : ℕ) : ((first :: rest).filter fun r => r.connection = c).length =
          (if first.connection = c then 1 else 0) +
            (rest.filter fun r => r.connection = c).length := by
        by_cases same : first.connection = c <;> simp [same, Nat.add_comm]
      simp only [step, Finset.sum_add_distrib, Finset.sum_ite_eq, Finset.mem_range, member, if_true]
      rw [← ih fun r hr => below r (List.mem_cons_of_mem _ hr), List.length_cons, Nat.add_comm]

theorem length_flatMap_messages (rounds : List Round) :
    (rounds.flatMap Round.messages).length = 2 * rounds.length := by
  induction rounds with
  | nil => rfl
  | cons first rest ih =>
      simp only [List.flatMap_cons, List.length_append, Round.messages, List.length_cons,
        List.length_nil, ih]
      omega

/-- A round takes its answer from the client. A call of `set_schedule` that comes back has cost two
messages on one connection to the aggregator, so that none comes back while each client hands in
one schedule. -/
theorem returned_le (single : aggLibrary.Single)
    (run : StepRun.exec (step aggLibrary collLibrary) (start aggLibrary collLibrary) events =
      some s) :
    s.battery.returned ≤ ∑ c ∈ Finset.range s.accepted, (sentOn events c).length / 2 := by
  obtain ⟨rounds, pending, calls, opened, h⟩ := explains_of_exec run
  obtain ⟨count, each⟩ :=
    @Aggregator.rounds_length ρ aggLibrary (Aggregator.start aggLibrary) single rounds
  have begun : (((Aggregator.start aggLibrary).rounds aggLibrary rounds).2.begun aggLibrary
      pending).1.length ≤ 1 := by
    cases pending with
    | none => exact Nat.zero_le _
    | some p =>
        rw [Aggregator.begun, Aggregator.handle_of_schedule (h.isSchedule p rfl), single.aggregate]
  have callsRead : (calls.map Prod.snd).flatten.length = 3 * calls.length := by
    rw [length_flatten_of_three, List.length_map]
    intro m hm
    obtain ⟨call, hcall, rfl⟩ := List.mem_map.mp hm
    exact h.whole call hcall
  have fewer : calls.length ≤ rounds.length := by
    have stream := congrArg List.length h.stream
    rw [List.length_append, length_flatten_of_three each, count, List.flatMap_append,
      List.flatMap_def, List.length_append, List.length_append, callsRead] at stream
    omega
  have returned : s.battery.returned = calls.length := by
    obtain ⟨-, back⟩ := @SecureBattery.calls_spec κ collLibrary (SecureBattery.start collLibrary)
      rfl calls h.whole
    rw [SecureBattery.start, Nat.zero_add] at back
    rw [h.battery]
    cases opened with
    | none => exact back
    | some call => exact (SecureBattery.call_of_lt call.1 (h.part call rfl)).2.trans back
  calc s.battery.returned = calls.length := returned
    _ ≤ rounds.length := fewer
    _ = ∑ c ∈ Finset.range s.accepted, (rounds.filter fun r => r.connection = c).length :=
      rounds_length_eq h.accepted.1
    _ ≤ ∑ c ∈ Finset.range s.accepted, (sentOn events c).length / 2 := by
      refine Finset.sum_le_sum fun c _ => ?_
      obtain ⟨read, sent, taken⟩ := h.inOrder c
      have bound := ((List.sublist_append_left _ _).trans
        (taken.trans (List.sublist_append_left _ (s.inbox c)))).length_le
      rw [← sent, length_flatMap_messages] at bound
      omega

theorem returned_le_twoSchedules :
    ∃ s, StepRun.exec (step markingAggregator listingCollector)
        (start markingAggregator listingCollector) twoSchedules = some s ∧
      s.battery.returned ≤ ∑ c ∈ Finset.range s.accepted, (sentOn twoSchedules c).length / 2 := by
  obtain ⟨s, run⟩ := Option.isSome_iff_exists.mp
    (show (StepRun.exec (step markingAggregator listingCollector)
      (start markingAggregator listingCollector) twoSchedules).isSome = true by decide +kernel)
  exact ⟨s, run, returned_le markingAggregator_single run⟩

end SecureSystem

end BatteryOS.V3
