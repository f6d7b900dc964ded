import SqlLayout.Main
import SqlLayout.Proofs.PreservedWords
import SqlLayout.Proofs.SteadyLayouts
import SqlLayout.Proofs.Faults
import SqlLayout.Proofs.UpperCase
import SqlLayout.Proofs.Widths
import SqlLayout.Proofs.Levels
import SqlLayout.Proofs.Workers
import SqlLayout.Proofs.Spellings
import SqlLayout.Proofs.PlacedWords
import SqlLayout.Proofs.ColumnCuts
import SqlLayout.Proofs.ClausePartition
import SqlLayout.Proofs.Octets
import SqlLayout.Proofs.Diagnosis
import SqlLayout.Proofs.Partners
import SqlLayout.Proofs.Patterns
import SqlLayout.Proofs.Reached
import SqlLayout.Proofs.Indents
import SqlLayout.Proofs.CaseEnds
import SqlLayout.Proofs.Aliases
import SqlLayout.Proofs.ReadableDiffs
import SqlLayout.Proofs.FileChanges
import SqlLayout.Proofs.SettingsSearch
import SqlLayout.Proofs.CallDepth
import SqlLayout.Proofs.LeftmostSplits
