import Wippy.Crdt.State

/-! Values that the backends of the key-value store share, `api/store/kv`. -/

namespace Wippy.Kv

abbrev Version := UInt64
abbrev LeaseID := Bytes

inductive KvError
  | keyNotFound
  | leaseNotFound
  deriving DecidableEq, Repr

inductive WatchEventType
  | put
  | delete
  | expired
  deriving DecidableEq, Repr

end Wippy.Kv
