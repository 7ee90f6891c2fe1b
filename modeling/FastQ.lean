import FastQ.Lib.Fifo
import FastQ.Proofs.Exclusion
import FastQ.Proofs.Publication
import FastQ.Proofs.Credit
import FastQ.Proofs.Mutex
import FastQ.Proofs.Shutdown
import FastQ.Proofs.Drain
import FastQ.Proofs.Slots
import FastQ.Proofs.Caches
import FastQ.Proofs.Spurious
import FastQ.Proofs.Size
import FastQ.Proofs.Accuracy
import FastQ.Proofs.Traffic
import FastQ.Proofs.WaitFree
import FastQ.Proofs.Delivery
import FastQ.Proofs.Completion
import FastQ.Proofs.Stopping
import FastQ.Proofs.TestRaces
import FastQ.Proofs.Batching
import FastQ.Proofs.Results
import FastQ.Proofs.Locked
import FastQ.Proofs.RigtorpCalls
import FastQ.Proofs.RigtorpRaces
