import Miasma.Chat.Engine.Acked
import Miasma.Chat.Engine.SingleUse
import Miasma.Chat.Group.Atomic
import Miasma.Chat.Group.Authority
import Miasma.Chat.Group.Channel
import Miasma.Chat.Group.Display
import Miasma.Chat.Group.Ledger
import Miasma.Chat.Group.Once
import Miasma.Chat.Group.Standing
import Miasma.Chat.History
import Miasma.Chat.Mailbox.Collect
import Miasma.Chat.Mailbox.Custody
import Miasma.Chat.Numbers
import Miasma.Chat.Pq.Agreement
import Miasma.Chat.Rollback.Reached
import Miasma.Directed.Guesses
import Miasma.Directed.Limits
import Miasma.Network.Expiry
import Miasma.Repair.Backoff
import Miasma.Repair.Budget
import Miasma.Replication.Queue
import Miasma.Retrieval.Matching
import Miasma.RootKey.Wipe
import Miasma.State.Migrate
import Miasma.State.Torn
import Miasma.Transfer.Direct
import Miasma.Transfer.Resumable
