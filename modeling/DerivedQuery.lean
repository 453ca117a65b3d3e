import DerivedQuery.Main
import DerivedQuery.Proofs.ByteCalls
import DerivedQuery.Proofs.Causes
import DerivedQuery.Proofs.Decoding
import DerivedQuery.Proofs.Joining
import DerivedQuery.Proofs.Limits
import DerivedQuery.Proofs.Longest
import DerivedQuery.Proofs.Lookup
import DerivedQuery.Proofs.Loosening
import DerivedQuery.Proofs.NamesFile
import DerivedQuery.Proofs.OrderItems
import DerivedQuery.Proofs.Overlisting
import DerivedQuery.Proofs.Preamble
import DerivedQuery.Proofs.Progress
import DerivedQuery.Proofs.Recasing
import DerivedQuery.Proofs.RoundTrip
