import CDbK8s.Client.Transparency
import CDbK8s.Db.Capacity
import CDbK8s.Db.Creation
import CDbK8s.Db.Validation
import CDbK8s.Dns.Leak
import CDbK8s.Dns.LostRdata
import CDbK8s.Dns.OptCodec
import CDbK8s.Hashmap.Reserved
import CDbK8s.Inet.Ip6Grammar
import CDbK8s.Launch.InOrder
import CDbK8s.Resolv.AddIndex
import CDbK8s.Resolv.Expiry
import CDbK8s.Resolv.Fixup
import CDbK8s.Resolv.Hosts
import CDbK8s.Resolv.Interest
import CDbK8s.Resolv.Lookup
import CDbK8s.Resolv.Stream
import CDbK8s.Server.Database
import CDbK8s.Server.Quit
import CDbK8s.Sock.Space
import CDbK8s.Sock.WriteQueue
import CDbK8s.Dns.Tables
import CDbK8s.Inet.Ip6Inside
import CDbK8s.Launch.Seccomp
import CDbK8s.Sock.Peer
