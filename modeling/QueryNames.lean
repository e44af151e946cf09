import QueryNames.Checked.Reading
import QueryNames.Completion.Reachable
import QueryNames.Editing
import QueryNames.Entity.Separable
import QueryNames.Json.Metadata
import QueryNames.Query.Complete
import QueryNames.Text.Cursor
import QueryNames.Proofs.HeadWord
import QueryNames.Proofs.Identifier
import QueryNames.Proofs.Marker
import QueryNames.Proofs.Keywords
import QueryNames.Proofs.Fragment
import QueryNames.Proofs.Branches
import QueryNames.Proofs.Chain
import QueryNames.Proofs.SubjectSection
import QueryNames.Proofs.ClosingSection
import QueryNames.Proofs.WrittenName
import QueryNames.Proofs.RoundTrip
import QueryNames.Proofs.ValidName
import QueryNames.Proofs.Accounting
import QueryNames.Proofs.Legible
import QueryNames.Proofs.Canonical
import QueryNames.Proofs.Draft
import QueryNames.Proofs.Growth
import QueryNames.Proofs.Progress
import QueryNames.Proofs.Lenience
import QueryNames.Proofs.Coverage
import QueryNames.Proofs.Extension
import QueryNames.Proofs.PlainSchema
import QueryNames.Proofs.TypedSubject
import QueryNames.Proofs.BrokenCriteria
import QueryNames.Proofs.BrokenSubject
import QueryNames.Proofs.Beginnings
import QueryNames.Proofs.TypedCriterion
import QueryNames.Proofs.TypedCriteria
import QueryNames.Proofs.TypedClosing
import QueryNames.Proofs.Typing
import QueryNames.Proofs.Declaration
import QueryNames.Proofs.DefectAccount
import QueryNames.Proofs.EmptySides
import QueryNames.Proofs.Seams
import QueryNames.Proofs.Carets
import QueryNames.Proofs.CheckedCriterion
import QueryNames.Proofs.CheckedLoop
import QueryNames.Proofs.CheckedPredicate
import QueryNames.Proofs.CheckedReading
import QueryNames.Proofs.HiddenSubject
import QueryNames.Proofs.BareName
import QueryNames.Proofs.LoneProperty
import QueryNames.Proofs.Residue
import QueryNames.Proofs.OwnOption
import QueryNames.Proofs.OrderPlaces
import QueryNames.Proofs.Joining
import QueryNames.Proofs.CriterionText
import QueryNames.Proofs.Continuations
import QueryNames.Proofs.LimitWords
import QueryNames.Proofs.LimitNumbers
import QueryNames.Proofs.Humps
import QueryNames.Proofs.CursorSearch
import QueryNames.Proofs.Resolution
import QueryNames.Proofs.JsonText
import QueryNames.Proofs.Metadata
