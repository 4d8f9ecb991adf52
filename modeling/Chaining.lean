import Chaining.Bulk
import Chaining.Cursor
import Chaining.Disposer
import Chaining.Ini.File
import Chaining.Sweep
import Chaining.Table.Lemmas
import Chaining.Proofs.Rejection
import Chaining.Proofs.Ownership
import Chaining.Proofs.Dictionary
import Chaining.Proofs.Growth
import Chaining.Proofs.LiveCursor
import Chaining.Proofs.Ini.Contents
import Chaining.Proofs.Load
import Chaining.Proofs.Refusal
import Chaining.Proofs.HighWater
import Chaining.Proofs.Geometry
import Chaining.Proofs.Amortisation
import Chaining.Proofs.HashIndependence
import Chaining.Proofs.Listing
import Chaining.Proofs.Ini.Writing
import Chaining.Proofs.Ini.RoundTrip
import Chaining.Proofs.Provision
import Chaining.Proofs.Refill
import Chaining.Proofs.InPlace
import Chaining.Proofs.StaleCursor
import Chaining.Proofs.Agreement
import Chaining.Proofs.GrowthCalls
import Chaining.Proofs.SweepWrites
import Chaining.Guard
import Chaining.Proofs.Guard
import Chaining.Proofs.Polynomial
