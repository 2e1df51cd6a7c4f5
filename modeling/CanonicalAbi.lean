import CanonicalAbi.Main
import CanonicalAbi.Stream.Catalogue
import CanonicalAbi.Text.Template
import CanonicalAbi.Proofs.RoundTrip
import CanonicalAbi.Proofs.Ownership
import CanonicalAbi.Proofs.Cleanup
import CanonicalAbi.Proofs.ReturnArea
import CanonicalAbi.Proofs.Listings
import CanonicalAbi.Proofs.MemoryUse
import CanonicalAbi.Proofs.BumpRuns
import CanonicalAbi.Proofs.RawBytes
import CanonicalAbi.Proofs.TableOutcomes
import CanonicalAbi.Proofs.EventLogs
import CanonicalAbi.Proofs.UpperHalves
import CanonicalAbi.Proofs.CoreReads
import CanonicalAbi.Proofs.Faults
import CanonicalAbi.Proofs.Requests
import CanonicalAbi.Proofs.Respelling
import CanonicalAbi.Proofs.Browsing
import CanonicalAbi.Proofs.Recursion
import CanonicalAbi.Proofs.Conversions
import CanonicalAbi.Proofs.Synonyms
import CanonicalAbi.Proofs.SharedSlots
import CanonicalAbi.Proofs.Histories
