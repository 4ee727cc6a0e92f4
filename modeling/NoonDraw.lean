import NoonDraw.Cache.Calls
import NoonDraw.Engine.Calls
import NoonDraw.Event.Json
import NoonDraw.Event.Row
import NoonDraw.Proofs.AcceptedSettings
import NoonDraw.Proofs.AllOrNothing
import NoonDraw.Proofs.AtomicDraws
import NoonDraw.Proofs.BoostLifetime
import NoonDraw.Proofs.BoostedWeights
import NoonDraw.Proofs.Charges
import NoonDraw.Proofs.ConcurrentWrites
import NoonDraw.Proofs.DrawVerdicts
import NoonDraw.Proofs.DrawableWeights
import NoonDraw.Proofs.Effects
import NoonDraw.Proofs.EventText
import NoonDraw.Proofs.FairDraws
import NoonDraw.Proofs.FlightRuns
import NoonDraw.Proofs.ForgottenLocks
import NoonDraw.Proofs.FoundedCalls
import NoonDraw.Proofs.FreeRolls
import NoonDraw.Proofs.Freshness
import NoonDraw.Proofs.GrowingHistory
import NoonDraw.Proofs.JobConservation
import NoonDraw.Proofs.ListedPlaces
import NoonDraw.Proofs.LocalWeeks
import NoonDraw.Proofs.Memberships
import NoonDraw.Proofs.QuotaSafety
import NoonDraw.Proofs.ReadPaths
import NoonDraw.Proofs.ReadYourWrites
import NoonDraw.Proofs.ReorderedHistory
import NoonDraw.Proofs.ReorderedReplay
import NoonDraw.Proofs.ReplayListing
import NoonDraw.Proofs.SingleEntries
import NoonDraw.Proofs.SingleFlight
import NoonDraw.Proofs.StoredRows
import NoonDraw.Proofs.Twins
