import Mathlib.Tactic.DeriveFintype

/-! Status codes, collective types and memory types of the public interface (`ucg.h`,
    `ucg_request.h`). An enumeration keeps its closing `LAST` member where the code compares
    against it. -/

namespace Kucg.Core

/-- `ucg_status_t`. -/
inductive Status where
  | ok
  | inprogress
  | errUnsupported
  | errInvalidParam
  | errNoResource
  | errNotFound
  | errNoMemory
  | errIncompatible
  | errIoError
  | errTruncate
  | errInvalidAddr
  | errUnreachable
  deriving DecidableEq, Repr

/-- A status is an error when it is neither `UCG_OK` nor `UCG_INPROGRESS`. -/
def Status.IsErr (st : Status) : Prop := st ≠ .ok ∧ st ≠ .inprogress

instance (st : Status) : Decidable st.IsErr := inferInstanceAs (Decidable (_ ∧ _))

/-- `ucg_coll_type_t`. -/
inductive CollType where
  | bcast | allreduce | barrier | alltoallv | scatterv | gatherv | allgatherv | reduce
  | ibcast | iallreduce | ibarrier | ialltoallv | iscatterv | igatherv | iallgatherv | ireduce
  | last
  deriving DecidableEq, Repr

/-- `ucg_mem_type_t`; `UCG_MEM_TYPE_LAST` is the same value as `UCG_MEM_TYPE_UNKNOWN`. -/
inductive MemType where
  | host | acl | unknown
  deriving DecidableEq, Repr

end Kucg.Core
