/-! # Block contracts

The contract of a block says how many values it takes from below the height at which it starts and
how many it leaves in their place. Contracts are listed by the index of the operation that opens the
block.
-/

namespace StackEffect

structure BlockContract where
  ins : Nat
  outs : Nat
deriving DecidableEq, Repr

/-- Contracts by the index of the opening operation, in increasing order of the indices. -/
abbrev ContractTable := List (Nat × BlockContract)

namespace ContractTable

/-- Records a contract, in place of an earlier one for the same opening operation. -/
def insert (opener : Nat) (contract : BlockContract) : ContractTable → ContractTable
  | [] => [(opener, contract)]
  | entry :: entries =>
    if opener < entry.1 then (opener, contract) :: entry :: entries
    else if opener = entry.1 then (opener, contract) :: entries
    else entry :: insert opener contract entries

def find? (table : ContractTable) (opener : Nat) : Option BlockContract :=
  table.lookup opener

end ContractTable

end StackEffect
