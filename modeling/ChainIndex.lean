import ChainIndex.Accumulator.Block
import ChainIndex.Accumulator.Contract
import ChainIndex.Accumulator.Delegator
import ChainIndex.Accumulator.Nft
import ChainIndex.Accumulator.Token
import ChainIndex.Address
import ChainIndex.Amount
import ChainIndex.Bytes.Basic
import ChainIndex.Bytes.Hex
import ChainIndex.Chain.Account
import ChainIndex.Chain.Block
import ChainIndex.Chain.Header
import ChainIndex.Chain.Log
import ChainIndex.Chain.Transaction
import ChainIndex.Classifier.Basic
import ChainIndex.Classifier.Contracts
import ChainIndex.Classifier.Delegation
import ChainIndex.Classifier.Informative
import ChainIndex.Classifier.Issue
import ChainIndex.Classifier.Nft
import ChainIndex.Classifier.NftProperties
import ChainIndex.Classifier.Roles
import ChainIndex.Config.Basic
import ChainIndex.Correlation.Basic
import ChainIndex.Correlation.Record
import ChainIndex.Correlation.Writes
import ChainIndex.Counters
import ChainIndex.Denomination
import ChainIndex.Dict
import ChainIndex.Dict.Lemmas
import ChainIndex.Digest.Blake2b
import ChainIndex.Document.Merge
import ChainIndex.Document.Order
import ChainIndex.Document.Path
import ChainIndex.Document.Value
import ChainIndex.Double.Basic
import ChainIndex.Double.Literal
import ChainIndex.Double.Range
import ChainIndex.Double.Shortest
import ChainIndex.Event.Delta
import ChainIndex.Event.Dispatch
import ChainIndex.Event.Name
import ChainIndex.Event.Outcome
import ChainIndex.Indexer.Balance
import ChainIndex.Indexer.Basic
import ChainIndex.Indexer.Batch
import ChainIndex.Indexer.BlockWrites
import ChainIndex.Indexer.Rollback
import ChainIndex.Indexer.TokenWrites
import ChainIndex.Json.Basic
import ChainIndex.Json.Printer
import ChainIndex.Json.Reader
import ChainIndex.Json.Slots
import ChainIndex.Status
import ChainIndex.Store.Basic
import ChainIndex.Store.Changes
import ChainIndex.Store.Index
import ChainIndex.Store.Session
import ChainIndex.Text.Field
import ChainIndex.Text.Split
import ChainIndex.Text.Utf8
import ChainIndex.Token.Attributes
import ChainIndex.Token.Identifier
import ChainIndex.Token.Metadata
import ChainIndex.Token.NftMetadata
import ChainIndex.Toml.Printer
import ChainIndex.Toml.Reader
import ChainIndex.Toml.Scan
import ChainIndex.Transfer.Data
import ChainIndex.Write.Action
import ChainIndex.Write.Bulk
import ChainIndex.Write.Fee
import ChainIndex.Write.Mutation
import ChainIndex.Write.Query
import ChainIndex.Write.Tagged
import ChainIndex.Proofs.Accumulator.Block
import ChainIndex.Proofs.Accumulator.Coherence
import ChainIndex.Proofs.Accumulator.Contract
import ChainIndex.Proofs.Accumulator.Delegator
import ChainIndex.Proofs.Accumulator.Deployments
import ChainIndex.Proofs.Accumulator.Join
import ChainIndex.Proofs.Accumulator.Nft
import ChainIndex.Proofs.Accumulator.Owners
import ChainIndex.Proofs.Accumulator.Roles
import ChainIndex.Proofs.Accumulator.Stakes
import ChainIndex.Proofs.Accumulator.Supply
import ChainIndex.Proofs.Accumulator.Token
import ChainIndex.Proofs.Bytes.Hex
import ChainIndex.Proofs.Bytes.Number
import ChainIndex.Proofs.Bytes.Word
import ChainIndex.Proofs.Chain.Forms
import ChainIndex.Proofs.Correlation.Changes
import ChainIndex.Proofs.Correlation.Conservation
import ChainIndex.Proofs.Correlation.Convergence
import ChainIndex.Proofs.Correlation.Credit
import ChainIndex.Proofs.Correlation.Delivery
import ChainIndex.Proofs.Correlation.Effect
import ChainIndex.Proofs.Correlation.Keywords
import ChainIndex.Proofs.Correlation.Pass
import ChainIndex.Proofs.Correlation.Record
import ChainIndex.Proofs.Correlation.Withdrawal
import ChainIndex.Proofs.Correlation.Writes
import ChainIndex.Proofs.Counters
import ChainIndex.Proofs.Decimal
import ChainIndex.Proofs.Dictionary
import ChainIndex.Proofs.Document.Forms
import ChainIndex.Proofs.Document.Overlay
import ChainIndex.Proofs.Event.Dispatch
import ChainIndex.Proofs.Event.Issues
import ChainIndex.Proofs.Event.Names
import ChainIndex.Proofs.Event.Signals
import ChainIndex.Proofs.Event.Statuses
import ChainIndex.Proofs.Fee.Balance
import ChainIndex.Proofs.Fee.History
import ChainIndex.Proofs.Fee.Ledger
import ChainIndex.Proofs.Fee.Repeat
import ChainIndex.Proofs.Fields
import ChainIndex.Proofs.Indexer.Attempt
import ChainIndex.Proofs.Indexer.Balances
import ChainIndex.Proofs.Indexer.Batch
import ChainIndex.Proofs.Indexer.BlockWrites
import ChainIndex.Proofs.Indexer.Calls
import ChainIndex.Proofs.Indexer.CollectionTypes
import ChainIndex.Proofs.Indexer.Concurrent
import ChainIndex.Proofs.Indexer.Creations
import ChainIndex.Proofs.Indexer.Duplicate
import ChainIndex.Proofs.Indexer.FailedSaves
import ChainIndex.Proofs.Indexer.FailedSteps
import ChainIndex.Proofs.Indexer.Fanout
import ChainIndex.Proofs.Indexer.Learnt
import ChainIndex.Proofs.Indexer.Lookups
import ChainIndex.Proofs.Indexer.Mirror
import ChainIndex.Proofs.Indexer.Ownership
import ChainIndex.Proofs.Indexer.PartialFlush
import ChainIndex.Proofs.Indexer.Race
import ChainIndex.Proofs.Indexer.LostSave
import ChainIndex.Proofs.Indexer.Reached
import ChainIndex.Proofs.Indexer.Received
import ChainIndex.Proofs.Indexer.Records
import ChainIndex.Proofs.Indexer.Redelivery
import ChainIndex.Proofs.Indexer.Reindex
import ChainIndex.Proofs.Indexer.Repetition
import ChainIndex.Proofs.Indexer.Retry
import ChainIndex.Proofs.Indexer.Revert
import ChainIndex.Proofs.Indexer.RevertEffect
import ChainIndex.Proofs.Indexer.Roles
import ChainIndex.Proofs.Indexer.Runs
import ChainIndex.Proofs.Indexer.Save
import ChainIndex.Proofs.Indexer.Settled
import ChainIndex.Proofs.Indexer.Success
import ChainIndex.Proofs.Indexer.TokenBatches
import ChainIndex.Proofs.Indexer.TokenWrites
import ChainIndex.Proofs.Indexer.Tokens
import ChainIndex.Proofs.Indexer.Undo
import ChainIndex.Proofs.Indexer.Unwind
import ChainIndex.Proofs.Items
import ChainIndex.Proofs.Json.Records
import ChainIndex.Proofs.Json.Stored
import ChainIndex.Proofs.Json.Text
import ChainIndex.Proofs.Json.Tokens
import ChainIndex.Proofs.Latch
import ChainIndex.Proofs.Store.Answers
import ChainIndex.Proofs.Store.Effect
import ChainIndex.Proofs.Store.Interleaving
import ChainIndex.Proofs.Store.Parallel
import ChainIndex.Proofs.Store.Selection
import ChainIndex.Proofs.Store.Unavailable
import ChainIndex.Proofs.Text.Field
import ChainIndex.Proofs.Text.Split
import ChainIndex.Proofs.Text.Utf8
import ChainIndex.Proofs.Token.Identifier
import ChainIndex.Proofs.Transfer.Called
import ChainIndex.Proofs.Transfer.Data
import ChainIndex.Proofs.Write.Bulk
import ChainIndex.Proofs.Write.Combine
import ChainIndex.Proofs.Write.Forms
import ChainIndex.Proofs.Write.Local
import ChainIndex.Proofs.Write.Nested
import ChainIndex.Proofs.Write.Ordered
import ChainIndex.Proofs.Write.Paths
import ChainIndex.Proofs.Write.Query
import ChainIndex.Proofs.Write.Repeat
import ChainIndex.Proofs.Write.Touch
