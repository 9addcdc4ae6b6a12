import ForkChoice.Config.Reader
import ForkChoice.Config.Writer
import ForkChoice.Ledger.Naming
import ForkChoice.Register.Request
import ForkChoice.Trie.Outline
import ForkChoice.Proofs.Ends
import ForkChoice.Proofs.Ledger.Content
import ForkChoice.Proofs.Ledger.Divergence
import ForkChoice.Proofs.Segment
import ForkChoice.Proofs.Trie.Nodes
import ForkChoice.Proofs.Trie.Lookup
import ForkChoice.Proofs.Trie.Insert
import ForkChoice.Proofs.Trie.Withdraw
import ForkChoice.Proofs.Trie.Votes
import ForkChoice.Proofs.Trie.Run
import ForkChoice.Proofs.Ledger.Walk
import ForkChoice.Proofs.Trie.Uncommitted
import ForkChoice.Proofs.Trie.Contest
import ForkChoice.Proofs.Trie.Preferred
import ForkChoice.Proofs.Trie.Shape
import ForkChoice.Loop
import ForkChoice.Trie.Slots
import ForkChoice.Trie.Arena
import ForkChoice.Proofs.Trie.Arena.Held
import ForkChoice.Proofs.Trie.Arena.Search
import ForkChoice.Proofs.Trie.Arena.Preferred
import ForkChoice.Proofs.Trie.Arena.Insert
import ForkChoice.Proofs.Trie.Arena.Withdraw
import ForkChoice.Proofs.Trie.Arena.Check
import ForkChoice.Proofs.Trie.Arena.Run
import ForkChoice.Proofs.Trie.Arena.Shape
import ForkChoice.Proofs.Trie.Lawful
import ForkChoice.Proofs.Register.Tables
import ForkChoice.Proofs.Register.Run
import ForkChoice.Proofs.Register.Agreement
import ForkChoice.Proofs.Register.Voters
import ForkChoice.Proofs.Register.Pending
import ForkChoice.Proofs.Register.Revocation
import ForkChoice.Proofs.Register.Freshness
import ForkChoice.Proofs.Register.Prompt
import ForkChoice.Proofs.Register.History
import ForkChoice.Proofs.Register.Rising
import ForkChoice.Proofs.Register.Tracking
import ForkChoice.Proofs.Register.Equivocation
import ForkChoice.Proofs.Register.Filing
import ForkChoice.Proofs.Register.Assessment
import ForkChoice.Proofs.Register.Custody
import ForkChoice.Proofs.Register.Shadow
import ForkChoice.Proofs.Register.Influence
import ForkChoice.Proofs.Register.Turning
import ForkChoice.Proofs.Register.Commuting
import ForkChoice.Proofs.Ledger.Secure
import ForkChoice.Proofs.Ledger.Path
import ForkChoice.Proofs.Trie.Arena.Stability
import ForkChoice.Proofs.Trie.Arena.Width
import ForkChoice.Proofs.Register.Trust
import ForkChoice.Proofs.Register.Consulting
import ForkChoice.Proofs.Register.Working
import ForkChoice.Proofs.Register.Fallback
import ForkChoice.Proofs.Register.Followers
import ForkChoice.Proofs.Register.Keeping
import ForkChoice.Proofs.Register.Window
import ForkChoice.Proofs.Register.Punctual
import ForkChoice.Proofs.Config.Scan
import ForkChoice.Proofs.Config.Reader
import ForkChoice.Proofs.Config.RoundTrip
import ForkChoice.Ledger.Parting
import ForkChoice.Proofs.Ledger.Holdings
import ForkChoice.Proofs.Ledger.Parting
import ForkChoice.Proofs.Ledger.Names
import ForkChoice.Proofs.Config.Tokens
import ForkChoice.Proofs.Config.Layout
import ForkChoice.Proofs.Config.Forms
import ForkChoice.Proofs.Segment.Pieces
import ForkChoice.Proofs.Trie.Arena.Trail
import ForkChoice.Proofs.AgedMap.Life
import ForkChoice.Proofs.Register.Laggards
