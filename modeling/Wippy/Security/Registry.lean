import Wippy.Registry.Entry

/-! The registry of security policies and of their groups, `system/security/registry.go`.

    The two tables are changed by one event at a time. A payload of another type or a nil entry is `none`, and so is a
    policy that is nil; the answer to a waiting caller is the second result of an event. -/

namespace Wippy.Security
open Lib Registry

structure Policy (P : Type) where
  id : ID
  impl : P
  deriving DecidableEq, Repr

structure PolicyEntry (P : Type) where
  policy : Policy P
  groups : List ID
  deriving DecidableEq, Repr

inductive PolicyError
  | invalidPolicyPayload
  | policyNotFound (path : Bytes)
  | groupNotFound
  | danglingPolicy (policy group : ID)
  | unknownKind
  | registryStopped
  | contextDone
  deriving DecidableEq, Repr

inductive EventKind
  | register
  | update
  | delete
  | other
  deriving DecidableEq, Repr

/-- Whether a caller waits for an event, and what the registry still knows of the request. -/
inductive Admission
  | unacknowledged
  /-- The request is not among the applications: it is left alone. -/
  | unknown
  | refused (err : PolicyError)
  | admitted
  deriving DecidableEq, Repr

structure Payload (P : Type) where
  policy : Option (Policy P)
  groups : List ID

structure Event (P : Type) where
  kind : EventKind
  path : Bytes
  data : Option (Payload P)
  admission : Admission := .unacknowledged

def Event.entry {P : Type} (e : Event P) : Option (PolicyEntry P) :=
  e.data.bind fun payload => payload.policy.map fun policy => { policy, groups := payload.groups }

structure PolicyRegistry (P : Type) where
  policies : Map ID (PolicyEntry P) := ∅
  groups : Map ID (List ID) := ∅

namespace PolicyRegistry
variable {P : Type}

def addPolicyToGroup (policyID : ID) (groups : Map ID (List ID)) (groupID : ID) : Map ID (List ID) :=
  let groupPolicies := (groups.lookup groupID).getD []
  if policyID ∈ groupPolicies then groups else groups.insert groupID (groupPolicies ++ [policyID])

def removePolicyFromGroup (policyID : ID) (groups : Map ID (List ID)) (groupID : ID) : Map ID (List ID) :=
  match groups.lookup groupID with
  | none => groups
  | some groupPolicies =>
    let newGroupPolicies := groupPolicies.filter fun id => id ≠ policyID
    if newGroupPolicies = [] then groups.erase groupID else groups.insert groupID newGroupPolicies

variable (r : PolicyRegistry P)

def registered (entry : PolicyEntry P) : PolicyRegistry P where
  policies := r.policies.insert entry.policy.id entry
  groups := entry.groups.foldl (addPolicyToGroup entry.policy.id) r.groups

variable (e : Event P)

def registerPolicy : Except PolicyError (PolicyRegistry P) :=
  match e.entry with
  | none => .error .invalidPolicyPayload
  | some entry => .ok (r.registered entry)

/-- The tables with an entry in the place of `existing`: out of the groups that only the old one names, in those that
    only the new one names. -/
def updated (existing entry : PolicyEntry P) : PolicyRegistry P where
  policies := r.policies.insert entry.policy.id entry
  groups := (entry.groups.filter fun newGroup => newGroup ∉ existing.groups).foldl (addPolicyToGroup entry.policy.id)
    ((existing.groups.filter fun oldGroup => oldGroup ∉ entry.groups).foldl
      (removePolicyFromGroup entry.policy.id) r.groups)

def updatePolicy : Except PolicyError (PolicyRegistry P) :=
  match e.entry with
  | none => .error .invalidPolicyPayload
  | some entry =>
    match r.policies.lookup entry.policy.id with
    | none => .error (.policyNotFound e.path)
    | some existing => .ok (r.updated existing entry)

def deleted (policyID : ID) (existing : PolicyEntry P) : PolicyRegistry P where
  policies := r.policies.erase policyID
  groups := existing.groups.foldl (removePolicyFromGroup policyID) r.groups

def deletePolicy : Except PolicyError (PolicyRegistry P) :=
  match r.policies.lookup (parseID e.path) with
  | none => .error (.policyNotFound e.path)
  | some existing => .ok (r.deleted (parseID e.path) existing)

def applyEvent : Except PolicyError (PolicyRegistry P) :=
  match e.kind with
  | .register => r.registerPolicy e
  | .update => r.updatePolicy e
  | .delete => r.deletePolicy e
  | .other => .error .unknownKind

def handleEvent : PolicyRegistry P × Option (Except PolicyError Unit) :=
  match e.admission with
  | .unknown => (r, none)
  | .refused err => (r, some (.error err))
  | _ =>
    match r.applyEvent e with
    | .error err => (r, some (.error err))
    | .ok next => (next, some (.ok ()))

def step : PolicyRegistry P := (r.handleEvent e).1

def getPolicy (id : ID) : Option (Policy P) := (r.policies.lookup id).map PolicyEntry.policy

def member (groupID id : ID) : Except PolicyError (Policy P) :=
  match r.getPolicy id with
  | none => .error (.danglingPolicy id groupID)
  | some policy => .ok policy

def getPolicyGroup (groupID : ID) : Except PolicyError (List (Policy P)) :=
  match r.groups.lookup groupID with
  | none => .error .groupNotFound
  | some policyIDs => policyIDs.mapM (r.member groupID)

end PolicyRegistry
end Wippy.Security
