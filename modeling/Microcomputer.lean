import Microcomputer.Main
import Microcomputer.Proofs.Bits
import Microcomputer.Proofs.Rom
import Microcomputer.Proofs.Template
import Microcomputer.Proofs.Cycle
import Microcomputer.Proofs.Acceptance
import Microcomputer.Proofs.Allocation
import Microcomputer.Proofs.Execution
import Microcomputer.Proofs.Image
import Microcomputer.Proofs.Simulation
import Microcomputer.Proofs.Safety
import Microcomputer.Proofs.Totality
import Microcomputer.Proofs.Rejection
import Microcomputer.Proofs.Views
import Microcomputer.Proofs.Decoding
import Microcomputer.Proofs.Subset
import Microcomputer.Proofs.Extension
import Microcomputer.Proofs.Completeness
import Microcomputer.Proofs.Formatting
import Microcomputer.Proofs.Restart
import Microcomputer.Proofs.Matching
import Microcomputer.Proofs.Ordering
import Microcomputer.Proofs.Literals
import Microcomputer.Proofs.Numbers
import Microcomputer.Proofs.Latching
import Microcomputer.Proofs.Boundary
import Microcomputer.Proofs.Limits
import Microcomputer.Proofs.Contention
import Microcomputer.Proofs.Rows
import Microcomputer.Proofs.Enumeration
import Microcomputer.Proofs.Chips
import Microcomputer.Proofs.Tracking
import Microcomputer.Proofs.Intersection
import Microcomputer.Proofs.Writing
import Microcomputer.Proofs.Complement
import Microcomputer.Proofs.Exclusion
import Microcomputer.Proofs.Expansion
import Microcomputer.Proofs.Construction
