import PagedMap.Engine.Edit
import PagedMap.Engine.Scan
import PagedMap.Engine.Snapshot
import PagedMap.Proofs.Order
import PagedMap.Proofs.Entries
import PagedMap.Proofs.Block
import PagedMap.Proofs.Change
import PagedMap.Proofs.Checkpoint
import PagedMap.Proofs.Put
import PagedMap.Proofs.Range
import PagedMap.Proofs.Recovery
import PagedMap.Proofs.Resizing
import PagedMap.Proofs.Halving
import PagedMap.Proofs.Partition
import PagedMap.Proofs.Failure
import PagedMap.Proofs.Growth
import PagedMap.Proofs.Scanning
import PagedMap.Proofs.Finality
import PagedMap.Proofs.Capacity
import PagedMap.Proofs.Outlived
import PagedMap.Proofs.Transparency
import PagedMap.Proofs.Exact
import PagedMap.Proofs.Folders
import PagedMap.Proofs.Progress
import PagedMap.Proofs.Durability
import PagedMap.Proofs.Damage
import PagedMap.Proofs.SecondChance
import PagedMap.Proofs.Isolation
import PagedMap.Proofs.Splitting
import PagedMap.Proofs.Interrupted
import PagedMap.Proofs.Deeds
import PagedMap.Proofs.Mooring
import PagedMap.Proofs.Writeback
import PagedMap.Proofs.Weighing
import PagedMap.Proofs.Chains
