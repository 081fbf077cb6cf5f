import Mathlib

/-! Requested actions, as bitmaps and as the actions that roles speak of. -/
namespace VarveDB.Authz

abbrev ActionsBitmap := BitVec 16

def covers (allowed requested : ActionsBitmap) : Bool := allowed &&& requested == requested

theorem covers_iff {allowed requested : ActionsBitmap} :
    covers allowed requested = true ↔ ∀ i, requested.getLsbD i = true → allowed.getLsbD i = true := by
  rw [covers, beq_iff_eq]
  constructor
  · intro h i hi
    have := congrArg (·.getLsbD i) h
    simpa [hi] using this
  · intro h
    refine BitVec.eq_of_getLsbD_eq fun i _ => ?_
    cases hi : requested.getLsbD i with
    | false => simp [hi]
    | true => simp [hi, h i hi]

structure DatabaseActions where
  bits : ActionsBitmap
  deriving DecidableEq

variable (actions : DatabaseActions)

namespace DatabaseActions
def create : ActionsBitmap := 1#16 <<< 0
def describe : ActionsBitmap := 1#16 <<< 1
def update : ActionsBitmap := 1#16 <<< 2
def drop : ActionsBitmap := 1#16 <<< 3
def read : ActionsBitmap := 1#16 <<< 4
def write : ActionsBitmap := 1#16 <<< 5
def delete : ActionsBitmap := 1#16 <<< 6

def allBits : List ActionsBitmap := [create, describe, update, drop, read, write, delete]

def contains (perm : ActionsBitmap) : Bool := covers actions.bits perm

def isAllowed (actions perm : DatabaseActions) : Bool := covers actions.bits perm.bits

end DatabaseActions

structure SystemActions where
  bits : ActionsBitmap
  deriving DecidableEq

namespace SystemActions
def read : ActionsBitmap := 1#16 <<< 0

def contains (actions : SystemActions) (perm : ActionsBitmap) : Bool := covers actions.bits perm

def isAllowed (actions perm : SystemActions) : Bool := covers actions.bits perm.bits

end SystemActions

structure CrudActions where
  bits : ActionsBitmap
  deriving DecidableEq

structure SystemResourceIdentifier where
  id : BitVec 16
  deriving DecidableEq

namespace SystemResourceIdentifier
def health : SystemResourceIdentifier := ⟨0⟩
def metrics : SystemResourceIdentifier := ⟨1⟩
def ping : SystemResourceIdentifier := ⟨2⟩
def ready : SystemResourceIdentifier := ⟨3⟩
end SystemResourceIdentifier

namespace Role

inductive ResourceIdentifier (α : Type) where
  | all
  | identifier (id : α)
  deriving DecidableEq

def ResourceIdentifier.covers {α : Type} [DecidableEq α] : ResourceIdentifier α → ResourceIdentifier α → Bool
  | all, _ => true
  | identifier have_, identifier need => have_ = need
  | identifier _, all => false

inductive DatabaseAction where
  | describe
  | read
  | write
  | create
  | delete
  deriving DecidableEq

inductive TokenAction where
  | read
  | create
  | delete
  deriving DecidableEq

inductive UserAction where
  | read
  | create
  | update
  | delete
  deriving DecidableEq

inductive RoleAction where
  | read
  | create
  | update
  | delete
  deriving DecidableEq

inductive AdminTokenAction where
  | create
  | delete
  deriving DecidableEq

inductive SystemAction where
  | read
  deriving DecidableEq

inductive SystemResource where
  | health
  | metrics
  | ping
  | ready
  deriving DecidableEq

def SystemResource.tryFrom (id : SystemResourceIdentifier) : Option SystemResource :=
  if id = .health then some .health
  else if id = .metrics then some .metrics
  else if id = .ping then some .ping
  else if id = .ready then some .ready
  else none

def SystemAction.fromBitmap (bits : SystemActions) : List SystemAction :=
  if bits.contains SystemActions.read then [.read] else []

end Role

def DatabaseActions.toDatabaseAction (bit : ActionsBitmap) : Option Role.DatabaseAction :=
  if bit = read then some .read
  else if bit = write then some .write
  else if bit = create then some .create
  else if bit = delete then some .delete
  else if bit = describe then some .describe
  else none

def DatabaseActions.toDatabaseActions : List Role.DatabaseAction :=
  (allBits.filter actions.contains).filterMap toDatabaseAction

inductive AccessRequest where
  | maybeDatabase (dbId : Option Nat) (actions : DatabaseActions)
  | database (dbId : Nat) (actions : DatabaseActions)
  | anyDatabase (actions : DatabaseActions)
  | token (tokenId : Nat) (actions : CrudActions)
  | system (resource : SystemResourceIdentifier) (actions : SystemActions)
  | user (action : Role.UserAction)
  | role (action : Role.RoleAction)
  | adminToken (action : Role.AdminTokenAction)
  | resourceToken (action : Role.TokenAction)
  | admin
  deriving DecidableEq

end VarveDB.Authz
