import Utilpp.Bits.Fields
import Utilpp.Lib.Transition

/-!
# Steam ids

`FSteamID` and `FSteamGlobalID` keep four fields in a vector of 64 bits and can be set and read as
one number. The getters of both return what was set last, and the number of an `FSteamID` is the
sum of its fields (`steam_id`). `FSteamGlobalID::GetValue` reads 64 bits from the process id on
and so leaves the vector for every id (`not_global_id`).
-/

namespace Utilpp.Steam

open Lib Bits

/-! ## The id of an account -/

/-- `FSteamID`. -/
structure FSteamID where
  value : TBitVector 64
  deriving DecidableEq, Repr

namespace FSteamID

/-- `AccountIDBitOffset` and `AccountIDBitLen`. -/
def accountIDBit : Field 64 := ⟨0, 32, by omega⟩

/-- `AccountInstanceBitOffset` and `AccountInstanceBitLen`. -/
def accountInstanceBit : Field 64 := ⟨32, 20, by omega⟩

/-- `AccountTypeBitOffset` and `AccountTypeBitLen`. -/
def accountTypeBit : Field 64 := ⟨52, 4, by omega⟩

/-- `AccountUniverseBitOffset` and `AccountUniverseBitLen`. -/
def accountUniverseBit : Field 64 := ⟨56, 8, by omega⟩

/-- The range of the accessors of the whole id. -/
def wholeBit : Field 64 := ⟨0, 64, by omega⟩

/-- The default constructor. -/
def new : FSteamID := ⟨.new 64⟩

/-- A setter: `SetBits` in the range of the field. -/
def setField {w : Nat} (f : Field 64) (val : BitVec w) (id : FSteamID) : Option FSteamID :=
  (id.value.checkedSetBits val f.offset f.length).map .mk

/-- `SetAccountID`. -/
def setAccountID (val : BitVec 32) : FSteamID → Option FSteamID := setField accountIDBit val

/-- `GetAccountID`. -/
def getAccountID (id : FSteamID) : Option (BitVec 32) :=
  id.value.checkedGetBits 32 accountIDBit.offset accountIDBit.length

/-- `SetAccountInstance`. -/
def setAccountInstance (val : BitVec 32) : FSteamID → Option FSteamID :=
  setField accountInstanceBit val

/-- `GetAccountInstance`. -/
def getAccountInstance (id : FSteamID) : Option (BitVec 32) :=
  id.value.checkedGetBits 32 accountInstanceBit.offset accountInstanceBit.length

/-- `SetAccountUniverse`; the argument is the underlying value of the `EUniverse`. -/
def setAccountUniverse {u : Nat} (val : BitVec u) : FSteamID → Option FSteamID :=
  setField accountUniverseBit val

/-- `GetAccountUniverse`, for an `EUniverse` of `u` bits. -/
def getAccountUniverse (u : Nat) (id : FSteamID) : Option (BitVec u) :=
  id.value.checkedGetBits u accountUniverseBit.offset accountUniverseBit.length

/-- `SetAccountType`; the argument is the underlying value of the `EAccountType`. -/
def setAccountType {t : Nat} (val : BitVec t) : FSteamID → Option FSteamID :=
  setField accountTypeBit val

/-- `GetAccountType`, for an `EAccountType` of `t` bits. -/
def getAccountType (t : Nat) (id : FSteamID) : Option (BitVec t) :=
  id.value.checkedGetBits t accountTypeBit.offset accountTypeBit.length

/-- `GetValue`. -/
def getValue (id : FSteamID) : Option (BitVec 64) := id.value.checkedGetBits 64 0 64

/-- `SetValue`; the vector is not cleared. -/
def setValue (val : BitVec 64) : FSteamID → Option FSteamID := setField wholeBit val

/-- The constructor that takes a number. -/
def ofValue (val : BitVec 64) : Option FSteamID := new.setValue val

/-! ### What an id says -/

/-- The four fields as numbers. -/
structure Fields where
  accountID : Nat
  accountInstance : Nat
  accountType : Nat
  accountUniverse : Nat
  deriving DecidableEq, Repr

/-- The number that packs the fields. -/
def Fields.number (f : Fields) : Nat :=
  f.accountID + f.accountInstance * 2 ^ 32 + f.accountType * 2 ^ 52 + f.accountUniverse * 2 ^ 56

/-- The fields that a number packs. -/
def Fields.ofNumber (n : Nat) : Fields where
  accountID := n % 2 ^ 32
  accountInstance := n / 2 ^ 32 % 2 ^ 20
  accountType := n / 2 ^ 52 % 2 ^ 4
  accountUniverse := n / 2 ^ 56 % 2 ^ 8

/-- The numbers of 64 bits are sums of fields. -/
theorem Fields.number_ofNumber {n : Nat} (h : n < 2 ^ 64) : (ofNumber n).number = n := by
  simp only [ofNumber, number]
  omega

/-- The fields of an id. -/
def fields (id : FSteamID) : Fields where
  accountID := accountIDBit.read id.value
  accountInstance := accountInstanceBit.read id.value
  accountType := accountTypeBit.read id.value
  accountUniverse := accountUniverseBit.read id.value

theorem fields_eq (id : FSteamID) : id.fields = .ofNumber (rowNumber id.value.data) := by
  have hlow : accountIDBit.read id.value = rowNumber id.value.data % 2 ^ 32 := by
    unfold Field.read
    rw [show accountIDBit.offset = 0 from rfl, Nat.pow_zero, Nat.div_one]
    rfl
  unfold fields
  rw [hlow]
  rfl

/-- The whole id is the number of the row. -/
theorem read_wholeBit (v : TBitVector 64) : wholeBit.read v = rowNumber v.data := by
  have hlt := rowNumber_lt v.data
  rw [v.length_data] at hlt
  unfold Field.read
  rw [show wholeBit.offset = 0 from rfl, Nat.pow_zero, Nat.div_one]
  exact Nat.mod_eq_of_lt hlt

/-- A setter with its argument. -/
inductive Setter (u t : Nat) where
  | accountID (val : BitVec 32)
  | accountInstance (val : BitVec 32)
  | accountType (val : BitVec t)
  | accountUniverse (val : BitVec u)
  | value (val : BitVec 64)

variable {u t : Nat}

/-- The call. -/
def Setter.apply : Setter u t → FSteamID → Option FSteamID
  | accountID val => setAccountID val
  | accountInstance val => setAccountInstance val
  | accountType val => setAccountType val
  | accountUniverse val => setAccountUniverse val
  | value val => setValue val

/-- What the call says about the fields: the argument modulo the width of the field, or all
fields of the argument. -/
def Setter.record : Setter u t → Fields → Fields
  | accountID val, f => { f with accountID := val.toNat % 2 ^ 32 }
  | accountInstance val, f => { f with accountInstance := val.toNat % 2 ^ 20 }
  | accountType val, f => { f with accountType := val.toNat % 2 ^ 4 }
  | accountUniverse val, f => { f with accountUniverse := val.toNat % 2 ^ 8 }
  | value val, _ => .ofNumber val.toNat

theorem setField_eq {w : Nat} (f : Field 64) (val : BitVec w) (id : FSteamID) :
    setField f val id = some ⟨id.value.setBits val f.offset f.length⟩ := by
  unfold setField
  rw [f.checkedSetBits]
  rfl

/-- One call sets its field and leaves the others. -/
theorem fields_apply (setter : Setter u t) (id : FSteamID) :
    ∃ id', setter.apply id = some id' ∧ id'.fields = setter.record id.fields := by
  cases setter with
  | accountID val =>
      refine ⟨_, setField_eq accountIDBit val id, ?_⟩
      simp only [fields, Setter.record, Fields.mk.injEq]
      exact ⟨Field.read_setBits_same _ _ _, Field.read_setBits_disjoint (by decide) _ _,
        Field.read_setBits_disjoint (by decide) _ _, Field.read_setBits_disjoint (by decide) _ _⟩
  | accountInstance val =>
      refine ⟨_, setField_eq accountInstanceBit val id, ?_⟩
      simp only [fields, Setter.record, Fields.mk.injEq]
      exact ⟨Field.read_setBits_disjoint (by decide) _ _, Field.read_setBits_same _ _ _,
        Field.read_setBits_disjoint (by decide) _ _, Field.read_setBits_disjoint (by decide) _ _⟩
  | accountType val =>
      refine ⟨_, setField_eq accountTypeBit val id, ?_⟩
      simp only [fields, Setter.record, Fields.mk.injEq]
      exact ⟨Field.read_setBits_disjoint (by decide) _ _,
        Field.read_setBits_disjoint (by decide) _ _, Field.read_setBits_same _ _ _,
        Field.read_setBits_disjoint (by decide) _ _⟩
  | accountUniverse val =>
      refine ⟨_, setField_eq accountUniverseBit val id, ?_⟩
      simp only [fields, Setter.record, Fields.mk.injEq]
      exact ⟨Field.read_setBits_disjoint (by decide) _ _,
        Field.read_setBits_disjoint (by decide) _ _, Field.read_setBits_disjoint (by decide) _ _,
        Field.read_setBits_same _ _ _⟩
  | value val =>
      refine ⟨_, setField_eq wholeBit val id, ?_⟩
      have hlt : val.toNat % 2 ^ wholeBit.length = val.toNat := Nat.mod_eq_of_lt val.isLt
      have hnumber : rowNumber (id.value.setBits val 0 64).data = val.toNat := by
        have hread := wholeBit.read_setBits_same id.value val
        rwa [read_wholeBit, hlt] at hread
      rw [fields_eq]
      exact congrArg Fields.ofNumber hnumber

/-- The getters return the fields, and `GetValue` their number. -/
structure Returns (u t : Nat) (id : FSteamID) (f : Fields) : Prop where
  accountID : id.getAccountID.map BitVec.toNat = some f.accountID
  accountInstance : id.getAccountInstance.map BitVec.toNat = some f.accountInstance
  accountType : (id.getAccountType t).map BitVec.toNat = some f.accountType
  accountUniverse : (id.getAccountUniverse u).map BitVec.toNat = some f.accountUniverse
  value : id.getValue.map BitVec.toNat = some f.number

theorem returns_fields (id : FSteamID) (hu : 8 ≤ u) (ht : 8 ≤ t) : Returns u t id id.fields where
  accountID := accountIDBit.map_checkedGetBits id.value (by decide)
  accountInstance := accountInstanceBit.map_checkedGetBits id.value (by decide)
  accountType := accountTypeBit.map_checkedGetBits id.value (by show 4 ≤ min 64 t; omega)
  accountUniverse := accountUniverseBit.map_checkedGetBits id.value (by show 8 ≤ min 64 u; omega)
  value := by
    have hlt := rowNumber_lt id.value.data
    rw [id.value.length_data] at hlt
    rw [fields_eq, Fields.number_ofNumber hlt, ← read_wholeBit]
    exact wholeBit.map_checkedGetBits id.value (by decide)

/-- A run of setters. -/
def run (id : FSteamID) (setters : List (Setter u t)) : Option FSteamID :=
  exec (fun id setter => setter.apply id) id setters

/-- The fields behind a run are those that the calls say. -/
theorem fields_run (id : FSteamID) (setters : List (Setter u t)) :
    ∃ id', id.run setters = some id' ∧
      id'.fields = setters.foldl (fun f setter => setter.record f) id.fields := by
  refine exec_follows (fun f id => id.fields = f) (fun f id setter hf _ => ?_) rfl
    (guarded_true id setters)
  subst hf
  exact fields_apply setter id

theorem fields_new : new.fields = ⟨0, 0, 0, 0⟩ := by
  simp only [fields, new, Field.read_new]

/-- An id made from a number returns it, and behind every sequence of setters the getters return
the fields that the calls say, and `GetValue` their sum. The underlying types of the enumerations
have `u` and `t` bits. -/
theorem steam_id (u t : Nat) (hu : 8 ≤ u) (ht : 8 ≤ t) :
    (∀ val : BitVec 64, (ofValue val).bind getValue = some val) ∧
      (∀ setters : List (Setter u t), ∃ id, new.run setters = some id ∧
        Returns u t id (setters.foldl (fun f setter => setter.record f) ⟨0, 0, 0, 0⟩)) ∧
      ∀ (val : BitVec 64) (setters : List (Setter u t)),
        ∃ start id, ofValue val = some start ∧ start.run setters = some id ∧
          Returns u t id
            (setters.foldl (fun f setter => setter.record f) (.ofNumber val.toNat)) := by
  have hvalue : ∀ val : BitVec 64, ∃ start, ofValue val = some start ∧
      start.fields = .ofNumber val.toNat :=
    fun val => fields_apply (u := u) (t := t) (.value val) new
  refine ⟨fun val => ?_, fun setters => ?_, fun val setters => ?_⟩
  · obtain ⟨start, hstart, hfields⟩ := hvalue val
    have hreturn := (returns_fields start hu ht).value
    rw [hfields, Fields.number_ofNumber val.isLt, Option.map_eq_some_iff] at hreturn
    obtain ⟨read, hread, heq⟩ := hreturn
    rw [hstart, Option.bind_some, hread, BitVec.eq_of_toNat_eq heq]
  · obtain ⟨id, hrun, hfields⟩ := fields_run new setters
    refine ⟨id, hrun, ?_⟩
    rw [← fields_new, ← hfields]
    exact returns_fields id hu ht
  · obtain ⟨start, hstart, hnumber⟩ := hvalue val
    obtain ⟨id, hrun, hfields⟩ := fields_run start setters
    refine ⟨start, id, hstart, hrun, ?_⟩
    rw [← hnumber, ← hfields]
    exact returns_fields id hu ht

/-- The first individual account of the public universe. -/
theorem steam_id_individual :
    ∃ id, new.run (u := 32) (t := 32)
        [.accountUniverse 1, .accountType 1, .accountInstance 1, .accountID 5] = some id ∧
      id.getValue.map BitVec.toNat = some 76561197960265733 := by
  obtain ⟨id, hrun, hreturn⟩ := (steam_id 32 32 (by omega) (by omega)).2.1
    [.accountUniverse 1, .accountType 1, .accountInstance 1, .accountID 5]
  exact ⟨id, hrun, hreturn.value⟩

end FSteamID

/-! ## The id of a job -/

/-- `FSteamGlobalID`. -/
structure FSteamGlobalID where
  value : TBitVector 64
  deriving DecidableEq, Repr

namespace FSteamGlobalID

/-- `SequentialCountBitOffset` and `SequentialCountBitLen`. -/
def sequentialCountBit : Field 64 := ⟨0, 20, by omega⟩

/-- `StartTimeBitOffset` and `StartTimeBitLen`. -/
def startTimeBit : Field 64 := ⟨20, 30, by omega⟩

/-- `ProcessIDBitOffset` and `ProcessIDBitLen`. -/
def processIDBit : Field 64 := ⟨50, 4, by omega⟩

/-- `BoxIDBitOffset` and `BoxIDBitLen`. -/
def boxIDBit : Field 64 := ⟨54, 10, by omega⟩

/-- `SteamStartTimeEpoch`, the first day of 2005, in seconds. -/
def steamStartTimeEpoch : Int := 1104537600

/-- The default constructor. -/
def new : FSteamGlobalID := ⟨.new 64⟩

/-- A setter: `SetBits` in the range of the field. -/
def setField {w : Nat} (f : Field 64) (val : BitVec w) (id : FSteamGlobalID) :
    Option FSteamGlobalID :=
  (id.value.checkedSetBits val f.offset f.length).map .mk

/-- `SetSequentialCount`. -/
def setSequentialCount (val : BitVec 32) : FSteamGlobalID → Option FSteamGlobalID :=
  setField sequentialCountBit val

/-- `GetSequentialCount`. -/
def getSequentialCount (id : FSteamGlobalID) : Option (BitVec 32) :=
  id.value.checkedGetBits 32 sequentialCountBit.offset sequentialCountBit.length

/-- The whole seconds between the epoch and a time of a clock with `ticks` in a second. -/
def sinceEpoch (ticks time : Int) : Int := (time - steamStartTimeEpoch * ticks).tdiv ticks

/-- `SetStartTime`. -/
def setStartTime (ticks time : Int) : FSteamGlobalID → Option FSteamGlobalID :=
  setField startTimeBit (BitVec.ofInt 64 (sinceEpoch ticks time))

/-- `GetStartTime`. -/
def getStartTime (ticks : Int) (id : FSteamGlobalID) : Option Int :=
  (id.value.checkedGetBits 64 startTimeBit.offset startTimeBit.length).map fun sec =>
    (steamStartTimeEpoch + sec.toInt) * ticks

/-- `SetProcessID`. -/
def setProcessID (val : BitVec 32) : FSteamGlobalID → Option FSteamGlobalID :=
  setField processIDBit val

/-- `GetProcessID`. -/
def getProcessID (id : FSteamGlobalID) : Option (BitVec 32) :=
  id.value.checkedGetBits 32 processIDBit.offset processIDBit.length

/-- `SetBoxID`. -/
def setBoxID (val : BitVec 32) : FSteamGlobalID → Option FSteamGlobalID := setField boxIDBit val

/-- `GetBoxID`. -/
def getBoxID (id : FSteamGlobalID) : Option (BitVec 32) :=
  id.value.checkedGetBits 32 boxIDBit.offset boxIDBit.length

/-- `GetValue`: the offset is that of the process id. -/
def getValue (id : FSteamGlobalID) : Option (BitVec 64) :=
  id.value.checkedGetBits 64 processIDBit.offset 64

/-- `SetValue`. -/
def setValue (val : BitVec 64) (id : FSteamGlobalID) : Option FSteamGlobalID :=
  (id.value.clearAll.checkedSetBits val 0 64).map .mk

/-- The constructor that takes a number. -/
def ofValue (val : BitVec 64) : Option FSteamGlobalID := new.setValue val

/-! ### What an id says -/

/-- The four fields as numbers; the start time is in seconds since the epoch. -/
structure Fields where
  sequentialCount : Nat
  startTime : Nat
  processID : Nat
  boxID : Nat
  deriving DecidableEq, Repr

/-- The number that packs the fields. -/
def Fields.number (f : Fields) : Nat :=
  f.sequentialCount + f.startTime * 2 ^ 20 + f.processID * 2 ^ 50 + f.boxID * 2 ^ 54

/-- The fields that a number packs. -/
def Fields.ofNumber (n : Nat) : Fields where
  sequentialCount := n % 2 ^ 20
  startTime := n / 2 ^ 20 % 2 ^ 30
  processID := n / 2 ^ 50 % 2 ^ 4
  boxID := n / 2 ^ 54 % 2 ^ 10

/-- The fields of an id. -/
def fields (id : FSteamGlobalID) : Fields where
  sequentialCount := sequentialCountBit.read id.value
  startTime := startTimeBit.read id.value
  processID := processIDBit.read id.value
  boxID := boxIDBit.read id.value

/-- A setter of a field with its argument. -/
inductive Setter where
  | sequentialCount (val : BitVec 32)
  | startTime (time : Int)
  | processID (val : BitVec 32)
  | boxID (val : BitVec 32)

/-- The call. -/
def Setter.apply (ticks : Int) : Setter → FSteamGlobalID → Option FSteamGlobalID
  | sequentialCount val => setSequentialCount val
  | startTime time => setStartTime ticks time
  | processID val => setProcessID val
  | boxID val => setBoxID val

/-- What the call says about the fields: the argument modulo the width of the field. -/
def Setter.record (ticks : Int) : Setter → Fields → Fields
  | sequentialCount val, f => { f with sequentialCount := val.toNat % 2 ^ 20 }
  | startTime time, f => { f with startTime := (sinceEpoch ticks time % 2 ^ 30).toNat }
  | processID val, f => { f with processID := val.toNat % 2 ^ 4 }
  | boxID val, f => { f with boxID := val.toNat % 2 ^ 10 }

theorem setField_eq {w : Nat} (f : Field 64) (val : BitVec w) (id : FSteamGlobalID) :
    setField f val id = some ⟨id.value.setBits val f.offset f.length⟩ := by
  unfold setField
  rw [f.checkedSetBits]
  rfl

/-- One call sets its field and leaves the others. -/
theorem fields_apply (ticks : Int) (setter : Setter) (id : FSteamGlobalID) :
    ∃ id', setter.apply ticks id = some id' ∧ id'.fields = setter.record ticks id.fields := by
  cases setter with
  | sequentialCount val =>
      refine ⟨_, setField_eq sequentialCountBit val id, ?_⟩
      simp only [fields, Setter.record, Fields.mk.injEq]
      exact ⟨Field.read_setBits_same _ _ _, Field.read_setBits_disjoint (by decide) _ _,
        Field.read_setBits_disjoint (by decide) _ _, Field.read_setBits_disjoint (by decide) _ _⟩
  | startTime time =>
      have hread := startTimeBit.read_setBits_same id.value
        (BitVec.ofInt 64 (sinceEpoch ticks time))
      have hmod : (BitVec.ofInt 64 (sinceEpoch ticks time)).toNat % 2 ^ startTimeBit.length =
          (sinceEpoch ticks time % 2 ^ 30).toNat := by
        rw [BitVec.toNat_ofInt, show startTimeBit.length = 30 from rfl]
        omega
      refine ⟨_, setField_eq startTimeBit _ id, ?_⟩
      simp only [fields, Setter.record, Fields.mk.injEq]
      exact ⟨Field.read_setBits_disjoint (by decide) _ _, hread.trans hmod,
        Field.read_setBits_disjoint (by decide) _ _, Field.read_setBits_disjoint (by decide) _ _⟩
  | processID val =>
      refine ⟨_, setField_eq processIDBit val id, ?_⟩
      simp only [fields, Setter.record, Fields.mk.injEq]
      exact ⟨Field.read_setBits_disjoint (by decide) _ _,
        Field.read_setBits_disjoint (by decide) _ _, Field.read_setBits_same _ _ _,
        Field.read_setBits_disjoint (by decide) _ _⟩
  | boxID val =>
      refine ⟨_, setField_eq boxIDBit val id, ?_⟩
      simp only [fields, Setter.record, Fields.mk.injEq]
      exact ⟨Field.read_setBits_disjoint (by decide) _ _,
        Field.read_setBits_disjoint (by decide) _ _, Field.read_setBits_disjoint (by decide) _ _,
        Field.read_setBits_same _ _ _⟩

/-- The getters of the fields return them. -/
structure FieldsReturned (ticks : Int) (id : FSteamGlobalID) (f : Fields) : Prop where
  sequentialCount : id.getSequentialCount.map BitVec.toNat = some f.sequentialCount
  startTime : id.getStartTime ticks = some ((steamStartTimeEpoch + f.startTime) * ticks)
  processID : id.getProcessID.map BitVec.toNat = some f.processID
  boxID : id.getBoxID.map BitVec.toNat = some f.boxID

/-- The getters return the fields, and `GetValue` their number. -/
structure Returns (ticks : Int) (id : FSteamGlobalID) (f : Fields) : Prop
    extends FieldsReturned ticks id f where
  value : id.getValue.map BitVec.toNat = some f.number

theorem fieldsReturned_fields (ticks : Int) (id : FSteamGlobalID) :
    FieldsReturned ticks id id.fields where
  sequentialCount := sequentialCountBit.map_checkedGetBits id.value (by decide)
  startTime := by
    have hread := startTimeBit.toNat_getBits id.value (w := 64) (by decide)
    have hlt : startTimeBit.read id.value < 2 ^ 30 := startTimeBit.read_lt id.value
    unfold getStartTime
    rw [startTimeBit.checkedGetBits, Option.map_some, BitVec.toInt_eq_toNat_of_lt (by omega), hread]
    rfl
  processID := processIDBit.map_checkedGetBits id.value (by decide)
  boxID := boxIDBit.map_checkedGetBits id.value (by decide)

/-- The assertion of `GetBits` fails in `GetValue`. -/
theorem getValue_eq_none (id : FSteamGlobalID) : id.getValue = none := by
  unfold getValue TBitVector.checkedGetBits
  exact if_neg (by decide)

/-- A run of setters. -/
def run (ticks : Int) (id : FSteamGlobalID) (setters : List Setter) : Option FSteamGlobalID :=
  exec (fun id setter => setter.apply ticks id) id setters

/-- The fields behind a run are those that the calls say. -/
theorem fields_run (ticks : Int) (id : FSteamGlobalID) (setters : List Setter) :
    ∃ id', id.run ticks setters = some id' ∧
      id'.fields = setters.foldl (fun f setter => setter.record ticks f) id.fields := by
  refine exec_follows (fun f id => id.fields = f) (fun f id setter hf _ => ?_) rfl
    (guarded_true id setters)
  subst hf
  exact fields_apply ticks setter id

theorem fields_new : new.fields = ⟨0, 0, 0, 0⟩ := by
  simp only [fields, new, Field.read_new]

/-- An id made from a number has its fields. -/
theorem fields_ofValue (val : BitVec 64) :
    ∃ start, ofValue val = some start ∧ start.fields = .ofNumber val.toNat := by
  refine ⟨⟨new.value.clearAll.setBits val 0 64⟩, rfl, ?_⟩
  have hread : ∀ f : Field 64, f.read (new.value.clearAll.setBits val 0 64) =
      val.toNat / 2 ^ f.offset % 2 ^ f.length := by
    intro f
    have hinside := f.inside
    exact f.read_setBits_of_le ⟨0, 64, by omega⟩ _ val (Nat.zero_le _) (by show _ ≤ 0 + 64; omega)
  simp only [fields, Fields.ofNumber, hread]
  simp only [sequentialCountBit, startTimeBit, processIDBit, boxIDBit, Nat.pow_zero, Nat.div_one]

/-- `GetValue` of no id returns a number, so that it is neither the number the id was made from
nor the sum of the fields. The getters of the fields return what was set last, and no setter
changes another field. -/
theorem not_global_id (ticks : Int) (setters : List Setter) :
    (∃ id, new.run ticks setters = some id ∧
      let f := setters.foldl (fun f setter => setter.record ticks f) ⟨0, 0, 0, 0⟩
      FieldsReturned ticks id f ∧ ¬ Returns ticks id f) ∧
      ∀ val : BitVec 64, (ofValue val).bind getValue ≠ some val ∧
        ∃ start id, ofValue val = some start ∧ start.run ticks setters = some id ∧
          let f := setters.foldl (fun f setter => setter.record ticks f) (.ofNumber val.toNat)
          FieldsReturned ticks id f ∧ ¬ Returns ticks id f := by
  have hnot : ∀ id f, ¬ Returns ticks id f := by
    intro id f h
    have hvalue := h.value
    rw [getValue_eq_none] at hvalue
    cases hvalue
  refine ⟨?_, fun val => ?_⟩
  · obtain ⟨id, hrun, hfields⟩ := fields_run ticks new setters
    refine ⟨id, hrun, ?_, hnot id _⟩
    rw [← fields_new, ← hfields]
    exact fieldsReturned_fields ticks id
  · obtain ⟨start, hstart, hnumber⟩ := fields_ofValue val
    obtain ⟨id, hrun, hfields⟩ := fields_run ticks start setters
    refine ⟨fun hvalue => ?_, start, id, hstart, hrun, ?_, hnot id _⟩
    · rw [hstart, Option.bind_some, getValue_eq_none] at hvalue
      cases hvalue
    · rw [← hnumber, ← hfields]
      exact fieldsReturned_fields ticks id

/-- The id made from zero does not return zero. -/
theorem global_id_zero : ¬ ∀ val : BitVec 64, (ofValue val).bind getValue = some val := by
  intro h
  have hzero := h 0
  obtain ⟨start, hstart, -⟩ := fields_ofValue 0
  rw [hstart, Option.bind_some, getValue_eq_none] at hzero
  cases hzero

end FSteamGlobalID

end Utilpp.Steam
