import BatteryOS.Library.Multigraph
import BatteryOS.Library.StepRun
import BatteryOS.V1.Battery

/-! The proportional policy. It keeps a scale and a current for each of the parts that it manages.
What the source and the meters say during a call is an argument, and what a call has changed before
it raises stays changed. -/

namespace BatteryOS.V1

def inUnitRange (scale : ℚ) : Bool := scale ≥ 0 && scale ≤ 1

/-- The constructor raises for a component outside of [0, 1]. -/
structure Scale where
  stateOfCharge : ℚ
  maxCapacity : ℚ
  maxDischargeRate : ℚ
  maxChargeRate : ℚ
  within : (inUnitRange stateOfCharge && inUnitRange maxCapacity && inUnitRange maxDischargeRate &&
    inUnitRange maxChargeRate) = true
deriving DecidableEq

inductive Component
  | stateOfCharge
  | maxCapacity
  | maxDischargeRate
  | maxChargeRate
deriving DecidableEq, Repr

namespace Scale

def new (stateOfCharge maxCapacity maxDischargeRate maxChargeRate : ℚ) : Except Error Scale :=
  if h : (inUnitRange stateOfCharge && inUnitRange maxCapacity && inUnitRange maxDischargeRate &&
      inUnitRange maxChargeRate) = true then
    .ok ⟨stateOfCharge, maxCapacity, maxDischargeRate, maxChargeRate, h⟩
  else .error .invalidArgument

def one : Scale := ⟨1, 1, 1, 1, by decide⟩

def sub (scale other : Scale) : Except Error Scale :=
  if scale.stateOfCharge ≥ other.stateOfCharge ∧ scale.maxCapacity ≥ other.maxCapacity ∧
      scale.maxDischargeRate ≥ other.maxDischargeRate ∧
      scale.maxChargeRate ≥ other.maxChargeRate then
    new (scale.stateOfCharge - other.stateOfCharge) (scale.maxCapacity - other.maxCapacity)
      (scale.maxDischargeRate - other.maxDischargeRate)
      (scale.maxChargeRate - other.maxChargeRate)
  else .error .noResources

def get (scale : Scale) : Component → ℚ
  | .stateOfCharge => scale.stateOfCharge
  | .maxCapacity => scale.maxCapacity
  | .maxDischargeRate => scale.maxDischargeRate
  | .maxChargeRate => scale.maxChargeRate

theorem inUnitRange_iff {scale : ℚ} : inUnitRange scale = true ↔ 0 ≤ scale ∧ scale ≤ 1 := by
  simp [inUnitRange]

theorem forall_component {P : Component → Prop} : (∀ c, P c) ↔
    P .stateOfCharge ∧ P .maxCapacity ∧ P .maxDischargeRate ∧ P .maxChargeRate := by
  constructor
  · exact fun h => ⟨h _, h _, h _, h _⟩
  · rintro ⟨charge, capacity, discharge, rate⟩ (_ | _ | _ | _) <;> assumption

theorem get_mem (scale : Scale) : ∀ c, 0 ≤ scale.get c ∧ scale.get c ≤ 1 := by
  have h := scale.within
  simp only [Bool.and_eq_true, inUnitRange_iff, and_assoc] at h
  simpa only [forall_component, get, and_assoc] using h

theorem sub_of_le {scale other : Scale} (le : ∀ c, other.get c ≤ scale.get c) :
    ∃ rest, scale.sub other = .ok rest ∧ ∀ c, rest.get c = scale.get c - other.get c := by
  have inside (c : Component) : inUnitRange (scale.get c - other.get c) = true := by
    have own := (scale.get_mem c).2
    have others := (other.get_mem c).1
    have fits := le c
    rw [inUnitRange_iff]
    constructor <;> linarith
  have all := forall_component.mp inside
  have fits := forall_component.mp le
  simp only [get] at all fits
  obtain ⟨charge, capacity, discharge, rate⟩ := all
  have within : (inUnitRange (scale.stateOfCharge - other.stateOfCharge) &&
      inUnitRange (scale.maxCapacity - other.maxCapacity) &&
      inUnitRange (scale.maxDischargeRate - other.maxDischargeRate) &&
      inUnitRange (scale.maxChargeRate - other.maxChargeRate)) = true := by
    rw [charge, capacity, discharge, rate]
    rfl
  refine ⟨⟨_, _, _, _, within⟩, ?_, forall_component.mpr ⟨rfl, rfl, rfl, rfl⟩⟩
  rw [sub, if_pos fits, new, dif_pos within]

theorem le_of_sub {scale other rest : Scale} (h : scale.sub other = .ok rest) :
    ∀ c, other.get c ≤ scale.get c := by
  unfold sub at h
  split_ifs at h with fits
  exact forall_component.mpr fits

end Scale

/-- What a call meets: what the source says each time it is asked, the meters of the batteries
that can be looked up, and which currents the source can be set to. -/
structure Environment where
  source : ℕ → Except Error BatteryStatus
  meter : String → Except Error ℚ
  setSource : ℚ → Except Error Unit

def item {β : Type} (m : OrderedMap String β) (k : String) : Except Error β :=
  match m.find? k with
  | none => .error .key
  | some v => .ok v

structure ProportionalPolicy where
  scales : OrderedMap String Scale
  currents : OrderedMap String ℚ

namespace ProportionalPolicy

def init (initname : String) : ProportionalPolicy where
  scales := OrderedMap.set ∅ initname .one
  currents := OrderedMap.set ∅ initname 0

def parts (p : ProportionalPolicy) : List String := p.scales.keys

/-- `get_status`, which asks the source twice. -/
def getStatus (p : ProportionalPolicy) (env : Environment) (dstname : String) :
    Except Error BatteryStatus := do
  let status ← env.source 0
  let scale ← item p.scales dstname
  let expectedSoc ← env.meter dstname
  let meters ← p.parts.mapM env.meter
  let again ← env.source 1
  let share ← div expectedSoc meters.sum
  let current ← item p.currents dstname
  return {
    voltage := status.voltage
    current := current
    stateOfCharge := share * again.stateOfCharge
    maxCapacity := status.maxCapacity * scale.maxCapacity
    maxDischargingCurrent := status.maxDischargingCurrent * scale.maxDischargeRate
    maxChargingCurrent := status.maxChargingCurrent * scale.maxChargeRate }

def checkCurrent (p : ProportionalPolicy) (env : Environment) (dstname : String)
    (targetCurrent : ℚ) : Except Error Unit := do
  let scale ← item p.scales dstname
  let status ← env.source 0
  if targetCurrent > status.maxDischargingCurrent * scale.maxDischargeRate then
    .error .noResources
  else if -targetCurrent > status.maxChargingCurrent * scale.maxChargeRate then
    .error .noResources
  else .ok ()

def netCurrent (p : ProportionalPolicy) : ℚ := p.currents.sumBy fun _ current => current

def assignCurrent (p : ProportionalPolicy) (dstname : String) (targetCurrent : ℚ) :
    ProportionalPolicy :=
  { p with currents := p.currents.set dstname targetCurrent }

def setCurrent (p : ProportionalPolicy) (env : Environment) (dstname : String)
    (targetCurrent : ℚ) : ProportionalPolicy × Except Error Unit :=
  match p.checkCurrent env dstname targetCurrent with
  | .error e => (p, .error e)
  | .ok _ =>
    let p := p.assignCurrent dstname targetCurrent
    (p, env.setSource p.netCurrent)

/-- What `add_child` does before it changes anything: the status of the child and its scale. -/
def childScale (p : ProportionalPolicy) (env : Environment) (name : String)
    (targetStatus : BatteryStatus) (fromName : String) : Except Error (BatteryStatus × Scale) :=
  if name ∈ p.parts then .error .invalidArgument
  else if fromName ∉ p.parts then .error .invalidArgument
  else do
    let fromStatus ← p.getStatus env fromName
    if fromStatus.current ≠ 0 then .error .batteryInUse
    else do
      let actualStatus : BatteryStatus := {
        voltage := fromStatus.voltage
        current := 0
        stateOfCharge := min targetStatus.stateOfCharge fromStatus.stateOfCharge
        maxCapacity := min targetStatus.maxCapacity fromStatus.maxCapacity
        maxDischargingCurrent :=
          min targetStatus.maxDischargingCurrent fromStatus.maxDischargingCurrent
        maxChargingCurrent :=
          min targetStatus.maxChargingCurrent fromStatus.maxChargingCurrent }
      let totalStatus ← env.source 2
      let charge ← div actualStatus.stateOfCharge totalStatus.stateOfCharge
      let capacity ← div actualStatus.maxCapacity totalStatus.maxCapacity
      let discharge ← div actualStatus.maxDischargingCurrent totalStatus.maxDischargingCurrent
      let rate ← div actualStatus.maxChargingCurrent totalStatus.maxChargingCurrent
      let scale ← Scale.new charge capacity discharge rate
      return (actualStatus, scale)

/-- `reset_meter`, as the value that the meter is set to. -/
def resetMeter (p : ProportionalPolicy) (env : Environment) (reading : ℕ) (name : String) :
    Except Error ℚ := do
  let total ← env.source reading
  let scale ← item p.scales name
  let _ ← env.meter name
  return total.stateOfCharge * scale.stateOfCharge

def insertChild (p : ProportionalPolicy) (name : String) (scale : Scale) : ProportionalPolicy where
  scales := p.scales.set name scale
  currents := p.currents.set name 0

/-- `add_child`. The child is inserted before its scale is taken from the donor. -/
def addChild (p : ProportionalPolicy) (env : Environment) (name : String)
    (targetStatus : BatteryStatus) (fromName : String) :
    ProportionalPolicy × Except Error BatteryStatus :=
  match p.childScale env name targetStatus fromName with
  | .error e => (p, .error e)
  | .ok (actualStatus, scale) =>
    let p := p.insertChild name scale
    match (item p.scales fromName).bind fun donor => donor.sub scale with
    | .error e => (p, .error e)
    | .ok rest =>
      let p := { p with scales := p.scales.set fromName rest }
      (p, (p.resetMeter env 3 fromName).map fun _ => actualStatus)

/-- `remove_child`, as the value that the meter of the other battery is set to. -/
def removeChild (p : ProportionalPolicy) (env : Environment) (name toName : String) :
    Except Error ℚ :=
  if name ∉ p.parts then .error .invalidArgument
  else do
    let current ← item p.currents name
    if current ≠ 0 then .error .batteryInUse
    else do
      let rmSoc ← env.meter name
      let toSoc ← env.meter toName
      return toSoc + rmSoc

inductive Action
  | addChild (env : Environment) (name : String) (targetStatus : BatteryStatus)
    (fromName : String)
  | removeChild (env : Environment) (name toName : String)
  | setCurrent (env : Environment) (dstname : String) (targetCurrent : ℚ)

/-- The policy after a call, and whether the call has raised. -/
def act (p : ProportionalPolicy) : Action → ProportionalPolicy × Bool
  | .addChild env name targetStatus fromName =>
      let result := p.addChild env name targetStatus fromName
      (result.1, !result.2.isOk)
  | .removeChild env name toName => (p, !(p.removeChild env name toName).isOk)
  | .setCurrent env dstname targetCurrent =>
      let result := p.setCurrent env dstname targetCurrent
      (result.1, !result.2.isOk)

def step (p : ProportionalPolicy) (a : Action) : Option ProportionalPolicy := some (p.act a).1

structure Divides (p : ProportionalPolicy) : Prop where
  sum : ∀ c, (p.scales.sumBy fun _ scale => scale.get c) = 1
  inRange : ∀ name scale, p.scales.find? name = some scale →
    ∀ c, 0 ≤ scale.get c ∧ scale.get c ≤ 1

structure Merged (p p' : ProportionalPolicy) (name toName : String) : Prop where
  gone : name ∉ p'.parts
  added : ∃ scale other merged, p.scales.find? name = some scale ∧
    p.scales.find? toName = some other ∧ p'.scales.find? toName = some merged ∧
    ∀ c, merged.get c = other.get c + scale.get c

/-- A call that raises changes nothing, and a part that is removed without an exception is merged
into the other one. -/
def Sound (p : ProportionalPolicy) (a : Action) : Prop :=
  ((p.act a).2 = true → (p.act a).1 = p) ∧
    ∀ env name toName, a = .removeChild env name toName → (p.act a).2 = false →
      Merged p (p.act a).1 name toName

/-- The call does not reach a branch that changes the policy and then raises, and does not remove
a part. -/
def Safe (p : ProportionalPolicy) : Action → Prop
  | .addChild env name targetStatus fromName =>
      ∀ status scale, p.childScale env name targetStatus fromName = .ok (status, scale) →
        (∀ donor, p.scales.find? fromName = some donor → ∀ c, scale.get c ≤ donor.get c) ∧
          ∃ total, env.source 3 = .ok total
  | .removeChild env name toName =>
      name ∉ p.parts ∨ p.currents.find? name ≠ some 0 ∨ (∃ e, env.meter name = .error e) ∨
        ∃ e, env.meter toName = .error e
  | .setCurrent env dstname targetCurrent =>
      p.checkCurrent env dstname targetCurrent = .ok () →
        p.currents.find? dstname = some targetCurrent ∨
          env.setSource (p.assignCurrent dstname targetCurrent).netCurrent = .ok ()

section Steps

variable {p : ProportionalPolicy} {env : Environment} {name fromName toName : String}
  {targetStatus status : BatteryStatus} {scale : Scale}

theorem mem_parts : name ∈ p.parts ↔ ∃ scale, p.scales.find? name = some scale :=
  OrderedMap.mem_keys

theorem item_of_some {β : Type} {m : OrderedMap String β} {k : String} {v : β}
    (h : m.find? k = some v) : item m k = .ok v := by
  rw [item, h]

theorem getStatus_ok (h : p.getStatus env fromName = .ok status) :
    ∃ m, env.meter fromName = .ok m := by
  simp only [getStatus, bind_eq_ok] at h
  obtain ⟨_, -, _, -, m, meter, -⟩ := h
  exact ⟨m, meter⟩

theorem childScale_ok
    (h : p.childScale env name targetStatus fromName = .ok (status, scale)) :
    name ∉ p.parts ∧ fromName ∈ p.parts ∧ ∃ m, env.meter fromName = .ok m := by
  unfold childScale at h
  split_ifs at h with taken donor
  rw [bind_eq_ok] at h
  obtain ⟨fromStatus, read, -⟩ := h
  exact ⟨taken, donor, getStatus_ok read⟩

theorem insertChild_ne {p' : ProportionalPolicy} (fresh : name ∉ p.parts)
    (inserted : ∃ scale, p'.scales.find? name = some scale) : p' ≠ p := by
  rintro rfl
  exact fresh (mem_parts.mpr inserted)

theorem addChild_of_ok {donor : Scale}
    (ok : p.childScale env name targetStatus fromName = .ok (status, scale))
    (found : p.scales.find? fromName = some donor) :
    p.addChild env name targetStatus fromName =
      match donor.sub scale with
      | .error e => (p.insertChild name scale, .error e)
      | .ok rest =>
        ({ p.insertChild name scale with
            scales := (p.insertChild name scale).scales.set fromName rest },
          (env.source 3).map fun _ => status) := by
  obtain ⟨fresh, -, m, meter⟩ := childScale_ok ok
  have ne : fromName ≠ name := by
    rintro rfl
    exact fresh (mem_parts.mpr ⟨donor, found⟩)
  have kept : item (p.insertChild name scale).scales fromName = .ok donor :=
    item_of_some (by rw [insertChild, OrderedMap.find?_set, if_neg ne, found])
  rw [addChild, ok]
  dsimp only
  rw [kept]
  cases sub : donor.sub scale with
  | error e => simp only [Except.bind, sub]
  | ok rest =>
      have written : item ((p.insertChild name scale).scales.set fromName rest) fromName =
          .ok rest := item_of_some (by rw [OrderedMap.find?_set, if_pos rfl])
      simp only [Except.bind, sub, resetMeter, written, meter]
      cases env.source 3 <;> rfl

theorem find?_insertChild (p : ProportionalPolicy) (name : String) (scale : Scale) :
    (p.insertChild name scale).scales.find? name = some scale := by
  rw [insertChild, OrderedMap.find?_set, if_pos rfl]

theorem addChild_sound_iff :
    (¬ (p.addChild env name targetStatus fromName).2.isOk →
        (p.addChild env name targetStatus fromName).1 = p) ↔
      p.Safe (.addChild env name targetStatus fromName) := by
  cases ok : p.childScale env name targetStatus fromName with
  | error e =>
      refine iff_of_true (fun _ => by rw [addChild, ok]) fun status scale h => ?_
      rw [ok] at h
      cases h
  | ok result =>
      obtain ⟨status, scale⟩ := result
      obtain ⟨fresh, managed, -⟩ := childScale_ok ok
      obtain ⟨donor, found⟩ := mem_parts.mp managed
      have safe : p.Safe (.addChild env name targetStatus fromName) ↔
          (∀ c, scale.get c ≤ donor.get c) ∧ ∃ total, env.source 3 = .ok total := by
        constructor
        · exact fun h => ⟨(h status scale ok).1 donor found, (h status scale ok).2⟩
        · rintro ⟨fits, read⟩ status' scale' ok'
          cases ok.symm.trans ok'
          exact ⟨fun donor' found' => by cases found.symm.trans found'; exact fits, read⟩
      rw [safe, addChild_of_ok ok found]
      cases sub : donor.sub scale with
      | error e =>
          refine iff_of_false (fun h => ?_) fun h => ?_
          · exact insertChild_ne fresh ⟨scale, find?_insertChild p name scale⟩
              (h Bool.false_ne_true)
          · obtain ⟨rest, taken, -⟩ := Scale.sub_of_le h.1
            rw [sub] at taken
            cases taken
      | ok rest =>
          rw [and_iff_right (Scale.le_of_sub sub)]
          cases read : env.source 3 with
          | ok total => exact iff_of_true (fun h => absurd rfl h) ⟨total, rfl⟩
          | error e =>
              refine iff_of_false (fun h => ?_) fun h => by obtain ⟨total, h⟩ := h; cases h
              have ne : name ≠ fromName := fun same => fresh (same ▸ managed)
              refine insertChild_ne fresh ⟨scale, ?_⟩ (h Bool.false_ne_true)
              rw [OrderedMap.find?_set, if_neg ne, find?_insertChild]

theorem setCurrent_sound_iff {dstname : String} {targetCurrent : ℚ} :
    (¬ (p.setCurrent env dstname targetCurrent).2.isOk →
        (p.setCurrent env dstname targetCurrent).1 = p) ↔
      p.Safe (.setCurrent env dstname targetCurrent) := by
  rw [Safe, setCurrent]
  cases checked : p.checkCurrent env dstname targetCurrent with
  | error e => exact iff_of_true (fun _ => rfl) fun h => by cases h
  | ok =>
      have assigned : p.assignCurrent dstname targetCurrent = p ↔
          p.currents.find? dstname = some targetCurrent := by
        constructor
        · intro same
          rw [← same, assignCurrent, OrderedMap.find?_set, if_pos rfl]
        · intro same
          have kept : p.currents.set dstname targetCurrent = p.currents :=
            OrderedMap.ext fun k => by
              rw [OrderedMap.find?_set]
              split_ifs with own
              · rw [own, same]
              · rfl
          rw [assignCurrent, kept]
      simp only [forall_const]
      rw [assigned]
      cases accepted : env.setSource (p.assignCurrent dstname targetCurrent).netCurrent with
      | ok => exact iff_of_true (fun h => absurd rfl h) (.inr rfl)
      | error e => exact ⟨fun h => .inl (h Bool.false_ne_true),
          fun h _ => h.resolve_right fun h => by cases h⟩

theorem removeChild_sound_iff :
    (p.removeChild env name toName).isOk = false ↔ p.Safe (.removeChild env name toName) := by
  rw [Safe, removeChild]
  by_cases managed : name ∈ p.parts
  · rw [if_neg (not_not.mpr managed), or_iff_right (not_not.mpr managed), item]
    cases current : p.currents.find? name with
    | none => exact iff_of_true rfl (.inl (by simp))
    | some c =>
        by_cases idle : c = 0
        · subst idle
          cases own : env.meter name with
          | error e => exact iff_of_true rfl (.inr (.inl ⟨e, rfl⟩))
          | ok rmSoc =>
              cases other : env.meter toName with
              | error e => exact iff_of_true rfl (.inr (.inr ⟨e, rfl⟩))
              | ok toSoc => exact iff_of_false (fun h => by cases h) (by simp)
        · refine iff_of_true ?_ (.inl fun h => idle (Option.some.inj h))
          change (if c ≠ 0 then Except.error Error.batteryInUse else _).isOk = false
          rw [if_pos idle]
          rfl
  · rw [if_pos managed]
    exact iff_of_true rfl (.inl managed)

theorem sound_iff_safe (p : ProportionalPolicy) (a : Action) : p.Sound a ↔ p.Safe a := by
  cases a with
  | addChild env name targetStatus fromName =>
      rw [← addChild_sound_iff, Sound, act]
      simp
  | removeChild env name toName =>
      rw [← removeChild_sound_iff]
      constructor
      · intro sound
        by_contra removed
        have managed : name ∈ p.parts := by
          by_contra unmanaged
          exact removed (removeChild_sound_iff.mpr (.inl unmanaged))
        have merged := sound.2 env name toName rfl (by simpa [act] using removed)
        exact merged.gone managed
      · intro raised
        refine ⟨fun _ => rfl, fun env' name' toName' same returned => ?_⟩
        cases same
        rw [act, raised] at returned
        cases returned
  | setCurrent env dstname targetCurrent =>
      rw [← setCurrent_sound_iff, Sound, act]
      simp

theorem addChild_cases (p : ProportionalPolicy) (env : Environment) (name fromName : String)
    (targetStatus : BatteryStatus) :
    (p.addChild env name targetStatus fromName).1 = p ∨
      (p.addChild env name targetStatus fromName).1.currents = p.currents.set name 0 ∧
        ∀ n ∈ (p.addChild env name targetStatus fromName).1.parts, n = name ∨ n ∈ p.parts := by
  cases ok : p.childScale env name targetStatus fromName with
  | error e => exact .inl (by rw [addChild, ok])
  | ok result =>
      obtain ⟨status, scale⟩ := result
      obtain ⟨-, managed, -⟩ := childScale_ok ok
      obtain ⟨donor, found⟩ := mem_parts.mp managed
      have inserted : ∀ n ∈ (p.insertChild name scale).parts, n = name ∨ n ∈ p.parts := by
        intro n hn
        rw [mem_parts, insertChild, OrderedMap.find?_set] at hn
        by_cases same : n = name
        · exact .inl same
        · rw [if_neg same] at hn
          exact .inr (mem_parts.mpr hn)
      right
      rw [addChild_of_ok ok found]
      cases donor.sub scale with
      | error e => exact ⟨rfl, inserted⟩
      | ok rest =>
          refine ⟨rfl, fun n hn => ?_⟩
          rw [mem_parts, OrderedMap.find?_set] at hn
          by_cases same : n = fromName
          · exact .inr (same ▸ managed)
          · rw [if_neg same] at hn
            exact inserted n (mem_parts.mpr hn)

theorem sum_addChild (safe : p.Safe (.addChild env name targetStatus fromName)) (c : Component) :
    ((p.addChild env name targetStatus fromName).1.scales.sumBy fun _ scale => scale.get c) =
      p.scales.sumBy fun _ scale => scale.get c := by
  cases ok : p.childScale env name targetStatus fromName with
  | error e => rw [addChild, ok]
  | ok result =>
      obtain ⟨status, scale⟩ := result
      obtain ⟨fresh, managed, -⟩ := childScale_ok ok
      obtain ⟨donor, found⟩ := mem_parts.mp managed
      obtain ⟨rest, sub, left⟩ := Scale.sub_of_le ((safe status scale ok).1 donor found)
      have free : p.scales.find? name = none := by
        rw [← Option.not_isSome_iff_eq_none, Option.isSome_iff_exists]
        exact fun taken => fresh (mem_parts.mpr taken)
      have ne : fromName ≠ name := fun same => fresh (same ▸ managed)
      have kept : (p.insertChild name scale).scales.find? fromName = some donor := by
        rw [insertChild, OrderedMap.find?_set, if_neg ne, found]
      have inserted := OrderedMap.sumBy_set_of_none free scale fun _ scale => scale.get c
      have taken := OrderedMap.sumBy_set_of_some kept rest fun _ scale => scale.get c
      have gone := left c
      rw [addChild_of_ok ok found, sub]
      simp only [insertChild] at taken ⊢
      linarith

theorem divides_step {p p' : ProportionalPolicy} {a : Action} (divides : p.Divides)
    (safe : p.Safe a) (h : p.step a = some p') : p'.Divides := by
  cases h
  refine ⟨fun c => ?_, fun _ scale _ => scale.get_mem⟩
  rw [← divides.sum c]
  cases a with
  | addChild env name targetStatus fromName => exact sum_addChild safe c
  | removeChild env name toName => rfl
  | setCurrent env dstname targetCurrent =>
      have same : (p.setCurrent env dstname targetCurrent).1.scales = p.scales := by
        rw [setCurrent]
        cases p.checkCurrent env dstname targetCurrent <;> rfl
      simp only [act, same]

theorem divides_init (initname : String) : (init initname).Divides where
  sum c := by
    have sum := OrderedMap.sumBy_set_of_none (OrderedMap.find?_empty initname) Scale.one
      fun _ scale => scale.get c
    rw [init, sum, OrderedMap.sumBy_empty, add_zero]
    cases c <;> rfl
  inRange _ scale _ := scale.get_mem

end Steps

open StepRun

/-- The scales make up the whole after every call of a run, and every call does what it says or
changes nothing, exactly in the runs without a call that raises after a change and without a part
being removed. -/
theorem run_sound_iff (initname : String) (calls : List Action) :
    Always step Divides (init initname) calls ∧ Along step Sound (init initname) calls ↔
      Along step Safe (init initname) calls := by
  have same : Along step Sound (init initname) calls ↔ Along step Safe (init initname) calls :=
    forall₄_congr fun _ action _ p => forall_congr' fun _ => sound_iff_safe p action
  rw [same]
  exact ⟨fun h => h.2, fun safe => ⟨always_of_along (divides_init initname)
    (fun p action p' divides safe h => divides_step divides safe h) safe, safe⟩⟩

def drifted (charge free part : ℚ) : Environment where
  source _ := .ok ⟨7000, 0, charge, 200, 20, 20⟩
  meter name := if name = "free" then .ok free else .ok part
  setSource _ := .ok ()

/-- A part of one half is split off. When it has given all its charge, a part with all the charge
that is left is to be split off the other half. -/
def overdraw : List Action :=
  [.addChild (drifted 100 100 0) "a" ⟨7000, 0, 50, 100, 10, 10⟩ "free",
    .addChild (drifted 50 50 0) "b" ⟨7000, 0, 50, 50, 5, 5⟩ "free"]

/-- The second call raises for lack of resources and leaves the new part behind. -/
theorem not_sound_overdraw :
    ¬ (Always step Divides (init "free") overdraw ∧ Along step Sound (init "free") overdraw) := by
  rintro ⟨divides, -⟩
  have after := (divides overdraw List.prefix_rfl _ rfl).sum .stateOfCharge
  exact absurd after (by decide +kernel)

end ProportionalPolicy

end BatteryOS.V1
